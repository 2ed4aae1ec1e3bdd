import Jos.Confine

/-!
  External interrupts.

  Of the vectors that `trap_init` installs handlers for, `trap_dispatch` knows the timer's only. The
  others are unexpected traps: the environment is destroyed, or the kernel panics if the CPU was
  halted. After a timer interrupt the environment waits until it is chosen again. -/

namespace Jos

open Lib RefCount

/-- The scheduler may choose the environment, or a CPU runs it. -/
def Eligible (v : Env) : Prop := v.envStatus = .runnable ∨ v.envStatus = .running

/-- What leaving the kernel may change of a record. -/
structure Rescheduled (v w : Env) : Prop where
  rest : w = { v with
    envStatus := w.envStatus, envRuns := w.envRuns, envCpunum := w.envCpunum }
  eligible : Eligible w ↔ Eligible v

/-- What an environment finds again once it runs. -/
structure Kept (v w : Env) : Prop where
  frame : w.envTf = v.envTf
  dir : w.envPgdir = v.envPgdir
  id : w.envId = v.envId
  recving : w.envIpcRecving = v.envIpcRecving
  eligible : Eligible v → Eligible w

/-- No CPU runs `e`. -/
def Asleep (e : EnvIdx) (s : KState) : Prop := ∀ k, (s.cpus k).mode = .user → s.curenv k ≠ some e

/-- `sys_env_set_status` of `e`. -/
def SetsStatus (s : KState) (cur : EnvIdx) (call : Call) (e : EnvIdx) : Prop :=
  call.no = 8 ∧ lookupEnv s cur call.a1 true = some e

/-- Calls on `e` that end it, change its status, or store a result in its saved frame. -/
def Disturbs (s : KState) (cur : EnvIdx) (call : Call) (e : EnvIdx) : Prop :=
  call.Destroys s cur e ∨ SetsStatus s cur call e ∨ SendsTo s cur call e

/-- The step is no such call. -/
def Spares (e : EnvIdx) (s : KState) (l : CpuIdx × Event) : Prop :=
  ∀ inp tf cur, l.2 = .trap inp tf → (s.cpus l.1).mode = .user → s.curenv l.1 = some cur →
    tf.tfTrapno = tSyscall → ¬ Disturbs s cur (Call.ofTf tf) e

section

variable {T : Prop} {c : CpuIdx} {cur e : EnvIdx} {s t : KState} {call : Call}

theorem Rescheduled.refl (v : Env) : Rescheduled v v := ⟨rfl, Iff.rfl⟩

theorem Rescheduled.trans {u v w : Env} (h : Rescheduled u v) (h' : Rescheduled v w) :
    Rescheduled u w := by
  refine ⟨?_, h'.eligible.trans h.eligible⟩
  rw [h'.rest, h.rest]

theorem Rescheduled.kept {v w : Env} (h : Rescheduled v w) : Kept v w := by
  refine ⟨?_, ?_, ?_, ?_, h.eligible.mpr⟩ <;> rw [h.rest]

theorem Scheduled.kept {v w : Env} (h : Scheduled v w) : Kept v w := by
  refine ⟨?_, ?_, ?_, ?_, fun hv => ?_⟩
  · rw [h.rest]
  · rw [h.rest]
  · rw [h.rest]
  · rw [h.rest]
  · rcases h.status with heq | ⟨-, hr⟩
    · unfold Eligible at hv ⊢
      rwa [heq]
    · exact Or.inr hr

theorem Kept.refl (v : Env) : Kept v v := ⟨rfl, rfl, rfl, rfl, fun h => h⟩

theorem Kept.trans {u v w : Env} (h : Kept u v) (h' : Kept v w) : Kept u w :=
  ⟨h'.frame.trans h.frame, h'.dir.trans h.dir, h'.id.trans h.id, h'.recving.trans h.recving,
    fun hu => h'.eligible (h.eligible hu)⟩

/-! ### Leaving the kernel -/

theorem preempt_rescheduled (x : EnvIdx) : Rescheduled (s.envs x) ((preempt c s).envs x) := by
  rw [preempt_envs]
  split
  · rename_i h
    refine ⟨rfl, ?_⟩
    simp [Eligible, h.2]
  · exact .refl _

theorem Runs.rescheduled (h : Runs c e s t) {x : EnvIdx} (he : x = e → Eligible (s.envs e)) :
    Rescheduled (s.envs x) (t.envs x) := by
  obtain ⟨pd, -, rfl⟩ := h
  refine (preempt_rescheduled (c := c) x).trans ?_
  rw [resume_envs]
  split
  · rename_i hx
    subst hx
    refine ⟨rfl, ?_⟩
    have hp := (preempt_rescheduled (c := c) (s := s) x).eligible.mpr (he rfl)
    simpa [Eligible] using hp
  · exact .refl _

theorem Yields.rescheduled (h : Yields c s t) (x : EnvIdx) :
    Rescheduled (s.envs x) (t.envs x) := by
  cases h with
  | pick hp hr => exact hr.rescheduled fun _ => Or.inl (schedPick_runnable hp)
  | stay _ _ hs hr => exact hr.rescheduled fun _ => Or.inr hs
  | halt _ _ _ => exact .refl _

theorem Returns.rescheduled (h : Returns c s t) (x : EnvIdx) :
    Rescheduled (s.envs x) (t.envs x) := by
  cases h with
  | stay _ hs hr => exact hr.rescheduled fun _ => Or.inr hs
  | yield _ hy => exact hy.rescheduled x

/-- Who had a chance to run and has one now may change between the two; other statuses stay. -/
theorem Runs.status (h : Runs c e s t) (he : Eligible (s.envs e)) (y : EnvIdx) :
    (t.envs y).envStatus = (s.envs y).envStatus ∨ Eligible (s.envs y) ∧ Eligible (t.envs y) := by
  obtain ⟨pd, -, rfl⟩ := h
  rw [resume_envs]
  split
  · rename_i hy
    subst hy
    exact Or.inr ⟨he, Or.inr rfl⟩
  · rw [preempt_envs]
    split
    · rename_i hp
      exact Or.inr ⟨Or.inr hp.2, Or.inl rfl⟩
    · exact Or.inl rfl

theorem Yields.status (h : Yields c s t) (y : EnvIdx) :
    (t.envs y).envStatus = (s.envs y).envStatus ∨ Eligible (s.envs y) ∧ Eligible (t.envs y) := by
  cases h with
  | pick hp hr => exact hr.status (Or.inl (schedPick_runnable hp)) y
  | stay _ _ hs hr => exact hr.status (Or.inr hs) y
  | halt _ _ _ => exact Or.inl rfl

theorem Returns.status (h : Returns c s t) (y : EnvIdx) :
    (t.envs y).envStatus = (s.envs y).envStatus ∨ Eligible (s.envs y) ∧ Eligible (t.envs y) := by
  cases h with
  | stay _ hs hr => exact hr.status (Or.inr hs) y
  | yield _ hy => exact hy.status y

theorem Runs.mem (h : Runs c e s t) : t.mem = s.mem := by
  obtain ⟨pd, -, rfl⟩ := h
  rw [resume_mem]
  unfold preempt
  split
  · rfl
  · split <;> rfl

theorem Yields.mem (h : Yields c s t) : t.mem = s.mem := by
  cases h with
  | pick _ hr => exact hr.mem
  | stay _ _ _ hr => exact hr.mem
  | halt _ _ _ => rfl

theorem Yields.cpus_of_ne (h : Yields c s t) {k : CpuIdx} (hk : k ≠ c) : t.cpus k = s.cpus k := by
  have hrun : ∀ {x}, Runs c x s t → t.cpus k = s.cpus k := by
    rintro x ⟨pd, -, rfl⟩
    rw [resume_cpus, Function.update_of_ne hk, preempt_cpus]
  cases h with
  | pick _ hr => exact hrun hr
  | stay _ _ _ hr => exact hrun hr
  | halt _ _ _ => rw [halted_cpus, Function.update_of_ne hk]

/-- A CPU that leaves the kernel leaves an environment behind that keeps it out of the monitor. -/
theorem Runs.busy (h : Runs c e s t) : (t.envs e).envStatus.busy = true := by
  obtain ⟨pd, -, rfl⟩ := h
  rw [resume_envs, if_pos rfl]
  rfl

theorem Yields.busy (h : Yields c s t) : ∃ x, (t.envs x).envStatus.busy = true := by
  cases h with
  | pick _ hr => exact ⟨_, hr.busy⟩
  | stay _ _ _ hr => exact ⟨_, hr.busy⟩
  | halt _ _ hb => exact hb

theorem Returns.busy (h : Returns c s t) : ∃ x, (t.envs x).envStatus.busy = true := by
  cases h with
  | stay _ _ hr => exact ⟨_, hr.busy⟩
  | yield _ hy => exact hy.busy

/-- `sched_yield` finds an environment to run, or halts. -/
theorem yields_total (hd : ∀ x, Eligible (s.envs x) → (s.envs x).envPgdir ≠ none)
    (hb : ∃ x, (s.envs x).envStatus.busy = true) : ∃ t, Yields c s t := by
  have hrun : ∀ x, Eligible (s.envs x) → ∃ t, Runs c x s t := by
    intro x hx
    obtain ⟨pd, hpd⟩ := Option.ne_none_iff_exists'.mp (hd x hx)
    exact ⟨_, pd, hpd, rfl⟩
  cases hp : schedPick s (schedBegin s c) with
  | some x =>
    obtain ⟨t, ht⟩ := hrun x (Or.inl (schedPick_runnable hp))
    exact ⟨t, .pick hp ht⟩
  | none =>
    by_cases hr : ∃ cur, s.curenv c = some cur ∧ (s.envs cur).envStatus = .running
    · obtain ⟨cur, hc, hr⟩ := hr
      obtain ⟨t, ht⟩ := hrun cur (Or.inr hr)
      exact ⟨t, .stay hp hc hr ht⟩
    · exact ⟨_, .halt hp (fun cur hc hs => hr ⟨cur, hc, hs⟩) hb⟩

/-! ### While an environment waits -/

/-- A record that an update of another environment leaves alone. -/
theorem setEnv_envs_of_ne {x : EnvIdx} {v : Env} (h : x ≠ e) : (s.setEnv e v).envs x = s.envs x := by
  simp [KState.setEnv, h]

theorem saved_disturbs (tf : Trapframe) :
    Disturbs (saved c cur tf s) cur call e ↔ Disturbs s cur call e := by
  unfold Disturbs Call.Destroys SetsStatus
  rw [saved_lookup, saved_sendsTo]

/-- A system call that returns. -/
theorem CallDone.kept {Le : List EnvIdx} (h : CallDone s c cur call t) (hL : EnvList s Le)
    (hlive : (s.envs e).envStatus ≠ .free) (hd : ¬ Disturbs s cur call e) :
    Kept (s.envs e) (t.envs e) := by
  have other : ∀ {x : EnvIdx} {v : Env}, x ≠ e → SameEnvs (s.setEnv x v) t →
      Kept (s.envs e) (t.envs e) := by
    intro x v hx ht
    rw [ht.envs, setEnv_envs_of_ne hx.symm]
    exact .refl _
  cases h with
  | nothing ht =>
    rw [ht.envs]
    exact .refl _
  | @marked x hdes _ _ ht =>
    refine other (x := x) ?_ ht
    rintro rfl
    exact hd (Or.inl hdes)
  | @freed x hdes _ _ ht =>
    have hx : e ≠ x := by
      rintro rfl
      exact hd (Or.inl hdes)
    rw [ht.envs, freed_envs hx]
    exact .refl _
  | @forked x p _ hhead ht =>
    have hx : e ≠ x := by
      rintro rfl
      refine hlive ((hL.free e).mp ?_)
      have hhd := hL.chain.head_eq
      rw [hhead] at hhd
      exact List.mem_of_head? hhd.symm
    rw [ht.envs]
    simp only [Jos.forked, KState.setEnv, Function.update_of_ne hx]
    exact .refl _
  | @status x st hno hl _ ht =>
    refine other (x := x) ?_ ht
    rintro rfl
    exact hd (Or.inr (Or.inl ⟨hno, hl⟩))
  | @upcall x _ _ ht =>
    by_cases hx : e = x
    · subst hx
      rw [ht.envs]
      simp only [KState.setEnv, Function.update_self]
      exact ⟨rfl, rfl, rfl, rfl, fun h => h⟩
    · exact other (Ne.symm hx) ht
  | @sent x perm hno hl hr ht =>
    refine other (x := x) ?_ ht
    rintro rfl
    exact hd (Or.inr (Or.inr ⟨hno, hl, hr⟩))

/-- A trap of another environment, or of a halted CPU. -/
theorem TrapEffect.kept {Le : List EnvIdx} {tf : Trapframe} (h : TrapEffect s c tf t)
    (hL : EnvList s Le) (hlive : (s.envs e).envStatus ≠ .free) (hz : Asleep e s)
    (hd : ∀ cur, (s.cpus c).mode = .user → s.curenv c = some cur → tf.tfTrapno = tSyscall →
      ¬ Disturbs s cur (Call.ofTf tf) e) : Kept (s.envs e) (t.envs e) := by
  have away : ∀ {cur}, (s.cpus c).mode = .user → s.curenv c = some cur → e ≠ cur := by
    rintro cur hm hc rfl
    exact hz c hm hc
  have hsav : ∀ {cur}, e ≠ cur → (saved c cur tf s).envs e = s.envs e := fun hx => by
    rw [saved_envs, if_neg hx]
  cases h with
  | collected hm hc _ hu hy => exact (Yields.after_death hu hy (away hm hc)).kept
  | @faulted cur u hm hc _ _ _ hu hr =>
    have hx := away hm hc
    have hk := (hr.rescheduled (x := e) fun h => absurd h hx).kept
    have henv : u.envs e = s.envs e := by
      rw [hu.envs]
      exact setEnv_envs_of_ne hx
    rwa [henv] at hk
  | killed hm hc _ _ _ hu hy =>
    have hk := (Yields.after_death hu hy (away hm hc)).kept
    rwa [hsav (away hm hc)] at hk
  | @called cur u w hm hc _ hsys hdone hr =>
    have hx := away hm hc
    have ha : Alike s (saved c cur tf s) := saved_alike tf
    have hL' : EnvList (saved c cur tf s) Le := hL.congr ha.envFreeList ha.dir ha.link ha.free
    have h1 := hdone.kept hL' (by rw [hsav hx]; exact hlive)
      fun hdis => hd cur hm hc hsys ((saved_disturbs tf).mp hdis)
    rw [hsav hx] at h1
    have h2 := (hr.rescheduled e).kept
    rw [setEnv_envs_of_ne hx] at h2
    exact h1.trans h2
  | left hm hc _ _ hl =>
    have hx := away hm hc
    cases hl with
    | died _ hu hy =>
      have hk := (Yields.after_death hu hy hx).kept
      rwa [hsav hx] at hk
    | yielded _ hy =>
      have hk := (hy.rescheduled e).kept
      rwa [hsav hx] at hk
    | received _ hy =>
      have hk := (hy.rescheduled e).kept
      have hrec : (receiving (saved c _ tf s) _ (Call.ofTf tf).a1).envs e = s.envs e :=
        (setEnv_envs_of_ne hx).trans (hsav hx)
      rwa [hrec] at hk
  | timer hm hc _ _ hy =>
    have hk := (hy.rescheduled e).kept
    rwa [hsav (away hm hc)] at hk
  | woken _ _ hy => exact (hy.rescheduled e).kept

/-- One step: an environment that waits keeps its frame and stays eligible. -/
theorem StepEffect.kept {Le : List EnvIdx} {ev : Event} (h : StepEffect s c t ev)
    (hL : EnvList s Le) (hlive : (s.envs e).envStatus ≠ .free) (hz : Asleep e s)
    (hsp : Spares e s (c, ev)) : Kept (s.envs e) (t.envs e) := by
  cases h with
  | trap _ ht => exact ht.kept hL hlive hz fun cur hm hc hsys => hsp _ _ cur rfl hm hc hsys
  | store _ ht =>
    rw [ht.envs]
    exact .refl _
  | start _ hy => exact (hy.rescheduled e).kept

/-- The kernel is never left with nothing to run. -/
theorem TrapEffect.busy {tf : Trapframe} (h : TrapEffect s c tf t) :
    ∃ x, (t.envs x).envStatus.busy = true := by
  cases h with
  | collected _ _ _ _ hy => exact hy.busy
  | faulted _ _ _ _ _ _ hr => exact ⟨_, hr.busy⟩
  | killed _ _ _ _ _ _ hy => exact hy.busy
  | called _ _ _ _ _ hr => exact hr.busy
  | left _ _ _ _ hl =>
    cases hl with
    | died _ _ hy => exact hy.busy
    | yielded _ hy => exact hy.busy
    | received _ hy => exact hy.busy
  | timer _ _ _ _ hy => exact hy.busy
  | woken _ _ hy => exact hy.busy

theorem StepEffect.busy {ev : Event} (h : StepEffect s c t ev)
    (hb : ∃ x, (s.envs x).envStatus.busy = true) : ∃ x, (t.envs x).envStatus.busy = true := by
  cases h with
  | trap _ ht => exact ht.busy
  | store _ ht =>
    rw [ht.envs]
    exact hb
  | start _ hy => exact hy.busy

/-! ### Page tables -/

variable {L : List Nat} {tf : Trapframe}

/-- The page tables are as before, or `cur` was freed and only its tables differ. -/
def Ends (cur : EnvIdx) (s t : KState) : Prop :=
  pteAt t = pteAt s ∨ Apart cur s t ∧ (t.envs cur).envStatus = .free

/-- An environment that was freed stays free while the CPU chooses another one. -/
theorem free_after_death {u v : KState} (hu : SameEnvs (freed e v) u)
    (hy : Yields c (u.setCurenv c none) t) : (t.envs e).envStatus = .free := by
  have hnone : (u.setCurenv c none).curenv c ≠ some e := by
    simp [KState.curenv, KState.setCurenv, KState.setCpu]
  have hfree : ((u.setCurenv c none).envs e).envStatus = .free := by
    show (u.envs e).envStatus = _
    rw [hu.envs]
    simp [freed, KState.setEnv]
  rcases (hy.scheduled hnone).status with hx | ⟨hx, -⟩
  · exact hx.trans hfree
  · exact absurd (hfree.symm.trans hx) (by decide)

theorem envDestroy_ends {Q : Unit → KState → Prop} {u : KState} (hu : PageInv u L ∅)
    (heq : pteAt u = pteAt s) (hcu : u.curenv c = some cur) :
    wp (envDestroy c cur) Q (Leaves (Ends cur s)) u := by
  have hstop : wp (envDestroy c cur) (fun _ _ => False)
      (Leaves fun t => (t.envs cur).envStatus = .free) u :=
    envDestroy_effect.mono (fun _ t ht => absurd hcu ht.1) fun x t hR hx => by
      obtain ⟨-, v, hv, hy⟩ := hR hx
      exact free_after_death hv hy
  exact ((envDestroy_apart hu).and hstop).mono (fun _ _ ht => ht.2.elim)
    fun x t ht hx => Or.inr ⟨(Apart.of_eq heq).trans (ht.1 hx), ht.2 hx⟩

theorem pageFaultHandler_ends {inp : Input} {Q : Unit → KState → Prop} (h : Mid T c ∅ s)
    (hn : NoStale s c inp) (hc : s.curenv c = some cur) (hd : (s.envs cur).envPgdir = some (s.cr3 c)) :
    wp (pageFaultHandler c inp tf) Q (Leaves (Ends cur s)) s := by
  obtain ⟨L, hL⟩ := h.core.page
  unfold pageFaultHandler
  refine wp_ite.mpr ⟨fun _ => by simp [wp_bind], fun _ => ?_⟩
  rw [wp_bind, wp_ok (getCurenv_run hc), wp_bind, wp_get]
  refine wp_ite.mpr ⟨fun _ => ?_, fun _ => envDestroy_ends hL rfl hc⟩
  unfold userMemAssert
  rw [wp_bind, wp_bind]
  refine userMemCheck_wp.mono (fun r t ht => ?_) fun x t hR hx => hR hx
  obtain ⟨a, rfl⟩ := ht
  have heq : pteAt { s with userMemCheckAddr := a } = pteAt s :=
    (tables_congr (s := s) (t := { s with userMemCheckAddr := a }) rfl (fun _ => rfl) rfl).2
  cases r with
  | error err =>
    exact envDestroy_ends (u := { s with userMemCheckAddr := a })
      (hL.congr rfl rfl rfl rfl rfl rfl) heq hc
  | ok _ =>
    rw [wp_pure, wp_bind]
    have hna : NoStale { s with userMemCheckAddr := a } c inp := hn.congr rfl rfl rfl
    obtain ⟨La, hLa⟩ := (h.checkAddr a).core.page
    rw [wp_of_eq (storeBytesCached_eq hLa hna hd (utrapframe_below _ _ _))]
    refine (storeBytes_mid (R := Leaves (Ends cur s)) (fun _ => by simp) (h.checkAddr a) hd
      (utrapframe_below _ _ _)).mono (fun _ u hu => ?_) fun _ _ hR => hR
    rw [wp_bind, wp_modify, wp_bind]
    refine envRun_wp fun v hv => Or.inl (hv.pteAt.trans ((pteAt_setEnv ?_).trans (hu.2.2.trans heq)))
    rfl

theorem trapDispatch_ends {inp : Input} {Q : Unit → KState → Prop} (h : Mid T c ∅ s)
    (hn : NoStale s c inp) (hc : s.curenv c = some cur) (hd : (s.envs cur).envPgdir = some (s.cr3 c))
    (hns : tf.tfTrapno ≠ tSyscall) :
    wp (trapDispatch c inp tf) Q (Leaves (Ends cur s)) s := by
  obtain ⟨L, hL⟩ := h.core.page
  unfold trapDispatch
  refine wp_ite.mpr ⟨fun _ => pageFaultHandler_ends h hn hc hd, fun _ => ?_⟩
  refine wp_ite.mpr ⟨fun _ => by simp, fun _ => ?_⟩
  refine wp_ite.mpr ⟨fun hsys => absurd hsys hns, fun _ => ?_⟩
  refine wp_ite.mpr ⟨fun _ => schedYield_wp fun t hy => Or.inl hy.pteAt, fun _ => ?_⟩
  refine wp_ite.mpr ⟨fun _ => by simp, fun _ => ?_⟩
  rw [wp_bind, wp_ok (getCurenv_run hc)]
  exact envDestroy_ends hL rfl hc

/-- A trap that is no system call changes no tables, unless the environment that took it is freed.
    An environment that is marked is freed before its call is looked at. -/
theorem trap_ends {inp : Input} (h : Inv T s) (ha : TrapAllowed s c tf)
    (hcur : T ∨ Current s c (.trap inp tf)) (hns : ∀ cur, (s.cpus c).mode = .user → s.curenv c = some cur →
      (s.envs cur).envStatus ≠ .dying → tf.tfTrapno ≠ tSyscall) :
    wp (trap c inp tf) (fun _ _ => False) (Leaves fun t => pteAt t = pteAt s ∨
      ∃ cur, (s.cpus c).mode = .user ∧ s.curenv c = some cur ∧ Ends cur s t) s := by
  unfold trap
  simp only [wp_bind, wp_modify]
  rcases ha with ⟨hm, hcs⟩ | ⟨hm, hcs, hirq⟩
  · -- from user mode
    obtain ⟨cur, hc, hd⟩ := (h.cpus c).running hm
    have hmid : Mid T c ∅ (started c s) := (h.mid c).setCpu _
    have hn : NoStale s c inp := .of_safe (h.cpus c) hm hcur
    refine wp_ite.mpr ⟨fun _ => ?_, fun h3 => absurd (cs_user hcs) h3⟩
    rw [wp_bind, wp_ok (getCurenv_run (curenv_started hc)), wp_bind]
    refine getCallerPcs_wp (by simp) fun _ => ?_
    rw [wp_bind, wp_get]
    refine wp_ite.mpr ⟨fun _ => ?_, fun hnd => ?_⟩
    · obtain ⟨L, hL⟩ := hmid.core.page
      have hs0 : pteAt (started c s) = pteAt s := pteAt_setCpu _
      rw [wp_bind]
      refine ((envFree_apart hL).and (envFree_effect (R := fun _ => True))).mono (fun _ u hu => ?_)
        fun x t hR hx => hR.1 hx
      simp only [wp_bind, wp_modify]
      refine schedYield_wp fun t hy => Or.inr ⟨cur, hm, hc, Or.inr ⟨fun o i j ho => ?_, ?_⟩⟩
      · have hset : pteAt (u.setCurenv c none) = pteAt u := pteAt_setCpu _
        rw [hy.pteAt, hset, hu.1 o i j ho, hs0]
      · exact free_after_death hu.2 hy
    · have hsv : Mid T c ∅ (saved c cur tf s) := hmid.setEnv rfl rfl Iff.rfl
      have hd' : ((saved c cur tf s).envs cur).envPgdir = some ((saved c cur tf s).cr3 c) := by
        simpa [saved, KState.setEnv, KState.setCpu] using hd
      have heq : pteAt (saved c cur tf s) = pteAt s := (saved_alike tf).tables.2
      simp only [wp_bind, wp_modify]
      refine (trapDispatch_ends hsv (hn.congr rfl rfl rfl) ((saved_curenv tf c).trans hc) hd'
        (hns cur hm hc hnd)).mono (fun _ _ ht => ht) fun x t hR hx => Or.inr ⟨cur, hm, hc, ?_⟩
      exact (hR hx).imp (fun hp => hp.trans heq) fun hp => ⟨(Apart.of_eq heq).trans hp.1, hp.2⟩
  · -- an interrupt that wakes a halted CPU
    have h3 : ¬ tf.tfCs &&& 3 = 3 := by
      rw [hcs]
      decide
    obtain ⟨h1, h2, h4⟩ := ne_of_irq hirq
    simp only [if_neg h3, trapDispatch, if_neg h1, if_neg h2, if_neg h4, wp_bind]
    refine wp_ite.mpr ⟨fun _ => schedYield_wp fun t hy => Or.inl ?_, fun _ => ?_⟩
    · rw [hy.pteAt, pteAt_setCpu]
    · rw [if_pos hcs]
      simp

/-- A step that changes an entry of `e` is a system call that does so, or the end of `e`. -/
theorem step_entry {ev : Event} (h : Inv T s) (hcur : T ∨ Current s c ev) (hst : Step s (c, ev) t)
    {i j : Idx}
    (hne : pteAt t (some e) i j ≠ pteAt s (some e) i j) :
    (∃ inp tf cur, ev = .trap inp tf ∧ (s.cpus c).mode = .user ∧ s.curenv c = some cur ∧
      (s.envs cur).envStatus ≠ .dying ∧ tf.tfTrapno = tSyscall ∧
      EditsEntry s cur (Call.ofTf tf) e i j) ∨
    (s.cpus c).mode = .user ∧ s.curenv c = some e ∧ (t.envs e).envStatus = .free := by
  obtain ⟨L, hL⟩ := h.core.page
  cases ev with
  | trap inp tf =>
    unfold Step step at hst
    simp only at hst
    split at hst
    · rename_i ha
      have hrun : trap c inp tf s = .error .leave t := enter_eq_some.mp hst
      by_cases hcall : ∃ cur, (s.cpus c).mode = .user ∧ s.curenv c = some cur ∧
          (s.envs cur).envStatus ≠ .dying ∧ tf.tfTrapno = tSyscall
      · obtain ⟨cur, hm, hc, hnd, hsys⟩ := hcall
        have hcs : tf.tfCs = gdUt ||| 3 := by
          rcases ha with ha | ha
          · exact ha.2
          · exact absurd (hm.symm.trans ha.1) (by decide)
        refine Or.inl ⟨inp, tf, cur, rfl, hm, hc, hnd, hsys, ?_⟩
        by_contra hno
        exact hne ((trap_edits hL hcs hc hnd hsys).error hrun rfl e i j hno)
      · rcases (trap_ends h ha hcur fun cur hm hc hnd hsys => hcall ⟨cur, hm, hc, hnd, hsys⟩).error hrun
          rfl with hp | ⟨cur, hm, hc, hp | ⟨hp, hf⟩⟩
        · rw [hp] at hne
          exact absurd rfl hne
        · rw [hp] at hne
          exact absurd rfl hne
        · rcases eq_or_ne e cur with rfl | hx
          · exact Or.inr ⟨hm, hc, hf⟩
          · exact absurd (hp (some e) i j fun hy => hx (Option.some.inj hy)) hne
    · cases hst
  | store va b via =>
    unfold Step step at hst
    simp only at hst
    split at hst
    · rename_i hm
      split at hst
      · cases hst
      · rename_i f hf
        split at hst
        · obtain ⟨x, -, htgt⟩ := storeFrame_target h hcur hm hf
          cases hst
          rw [(hL.notTable_of_pte htgt).pteAt_setFrame] at hne
          exact absurd rfl hne
        · cases hst
    · cases hst
  | start =>
    cases step_effect hst with
    | start _ hy =>
      rw [hy.pteAt] at hne
      exact absurd rfl hne

/-- The address space of `e` was edited by a system call that may. -/
def Edits (e : EnvIdx) (s : KState) (l : CpuIdx × Event) (i j : Idx) : Prop :=
  ∃ inp tf cur, l.2 = .trap inp tf ∧ (s.cpus l.1).mode = .user ∧ s.curenv l.1 = some cur ∧
    tf.tfTrapno = tSyscall ∧ MayEdit s cur (Call.ofTf tf) e i j

theorem step_edits {l : CpuIdx × Event} (h : Inv T s) (hs : StepSafe T s l) (hst : Step s l t)
    (hz : Asleep e s)
    {i j : Idx} (hne : pteAt t (some e) i j ≠ pteAt s (some e) i j) : Edits e s l i j := by
  obtain ⟨c, ev⟩ := l
  rcases step_entry h hs.1 hst hne with ⟨inp, tf, cur, hev, hm, hc, -, hsys, he⟩ | ⟨hm, hc, -⟩
  · exact ⟨inp, tf, cur, hev, hm, hc, hsys, he.may⟩
  · exact absurd hc (hz c hm)

/-! ### The interrupt -/

/-- A step after an interrupt of `e`, up to the one that runs it again. -/
def Between (e : EnvIdx) (s : KState) (l : CpuIdx × Event) : Prop :=
  StepSafe True s l ∧ Asleep e s ∧ Spares e s l

/-- `e`, which was interrupted in state `s` with the registers `tf`, in the later state `u`. -/
structure Waits (s : KState) (e : EnvIdx) (tf : Trapframe) (u : KState) : Prop where
  frame : (u.envs e).envTf = tf
  dir : (u.envs e).envPgdir = (s.envs e).envPgdir
  id : (u.envs e).envId = (s.envs e).envId
  eligible : Eligible (u.envs e)
  edits : ∀ l v, Between e u l → Step u l v → ∀ i j,
    pteAt v (some e) i j ≠ pteAt u (some e) i j → Edits e u l i j

/-- The interrupt goes unnoticed: the kernel is left again, memory is as it was, a halted CPU has
    gone to the scheduler, and an environment finds its registers once it runs again. -/
def Transparent (s : KState) (c : CpuIdx) (inp : Input) (tf : Trapframe) : Prop :=
  ∃ t, Step s (c, .trap inp tf) t ∧ t.mem = s.mem ∧
    ((s.cpus c).mode = .halted → Yields c (started c s) t) ∧
    ∀ e, (s.cpus c).mode = .user → s.curenv c = some e →
      ∀ ls u, Run (restrict (Between e) Step) t ls u → Waits s e tf u

/-- Every state of a run from boot has something to run. -/
theorem boot_busy {p : BootParams} {ls : List (CpuIdx × Event)}
    {ok : KState → CpuIdx × Event → Prop} (h : BootRun ok p ls s) :
    ∃ x, (s.envs x).envStatus.busy = true := by
  obtain ⟨s0, hb, hrun⟩ := h
  refine hrun.invariant (I := fun s => ∃ x, (s.envs x).envStatus.busy = true) ?_ ?_
  · rintro u ⟨c, ev⟩ v hu hst
    exact (step_effect hst.2).busy hu
  · obtain ⟨v, -, hv⟩ := (boot_booted hb).first
    refine ⟨0, ?_⟩
    rw [hv]
    rfl

/-- `trap` on a timer interrupt. -/
theorem trap_timer (cur : EnvIdx) {inp : Input} (ha : TrapAllowed s c tf) (hno : tf.tfTrapno = irqTimer)
    (hu : (s.cpus c).mode = .user → s.curenv c = some cur ∧ (s.envs cur).envStatus ≠ .dying ∧
      CallersOk s c inp tf)
    (hy : Yields c (if (s.cpus c).mode = .user then saved c cur tf s else started c s) t) :
    Step s (c, .trap inp tf) t := by
  have hdisp : ∀ u : KState, trapDispatch c inp tf u = schedYield c u := by
    intro u
    unfold trapDispatch
    rw [hno, if_neg (by decide), if_neg (by decide), if_neg (by decide), if_pos rfl]
  have hrun : trap c inp tf s = .error .leave t := by
    rcases ha with ⟨hm, hcs⟩ | ⟨hm, hcs, -⟩
    · obtain ⟨hc, hnd, hk⟩ := hu hm
      rw [if_pos hm] at hy
      rw [trap_user hcs hc hk hnd, run_bind, hdisp, schedYield_run hy]
    · have h3 : ¬ tf.tfCs &&& 3 = 3 := by
        rw [hcs]
        decide
      rw [if_neg (by rw [hm]; decide)] at hy
      simp only [trap, run_bind, run_modify, if_neg h3, hdisp]
      rw [show schedYield c (s.setCpu c { s.cpus c with cpuStatus := .started })
        = .error .leave t from schedYield_run hy]
  unfold Step step
  simp only
  rw [if_pos ha]
  exact enter_eq_some.mpr hrun

/-- An environment that was freed is not eligible when the CPU leaves the kernel. -/
theorem not_eligible_of_freed {u v : KState} (hu : SameEnvs (freed e v) u)
    (hy : Yields c (u.setCurenv c none) t) : ¬ Eligible (t.envs e) := by
  have hfree := free_after_death hu hy
  simp [Eligible, hfree]

/-- A run in which `e` waits. -/
theorem run_waits {u : KState} {ls : List (CpuIdx × Event)} (h : Inv True t)
    (hel : Eligible (t.envs e)) (hrun : Run (restrict (Between e) Step) t ls u) :
    Inv True u ∧ Kept (t.envs e) (u.envs e) := by
  refine hrun.invariant (I := fun u => Inv True u ∧ Kept (t.envs e) (u.envs e)) ?_ ⟨h, .refl _⟩
  rintro v ⟨k, ev⟩ w ⟨hv, hk⟩ ⟨⟨hsafe, hz, hsp⟩, hst⟩
  obtain ⟨Le, hLe⟩ := hv.core.envs
  have hlive : (v.envs e).envStatus ≠ .free := by
    intro hf
    have := hk.eligible hel
    rw [Eligible, hf] at this
    rcases this with hx | hx <;> cases hx
  exact ⟨step_inv hv hsafe hst, hk.trans ((step_effect hst).kept hLe hlive hz hsp)⟩

theorem reach_inv {T : Prop} {p : BootParams} {ls : List (CpuIdx × Event)}
    (h : BootRun (StepSafe T) p ls s) : Inv T s := by
  obtain ⟨s0, hb, hrun⟩ := h
  have h0 := (boot_booted hb).inv
  exact run_inv hrun ⟨h0.core, fun k => ⟨(h0.cpus k).running, fun _ => (h0.cpus k).fresh trivial⟩⟩

/-- An interrupt that goes unnoticed is the timer's, and the environment was eligible before and had
    a frame pointer that the kernel can follow. -/
theorem Transparent.timer {inp : Input} (h : Transparent s c inp tf) (ha : TrapAllowed s c tf)
    (hirq : tf.tfTrapno ∈ irqVectors) : tf.tfTrapno = irqTimer ∧
      ∀ e, (s.cpus c).mode = .user → s.curenv c = some e →
        Eligible (s.envs e) ∧ CallersOk s c inp tf := by
  obtain ⟨t, hst, -, -, huser⟩ := h
  have hcallers : ∀ {e}, (s.cpus c).mode = .user → s.curenv c = some e → CallersOk s c inp tf :=
    fun hm hc => callersOk_of_step ha hm hc hst
  have hnil : ∀ {e}, (s.cpus c).mode = .user → s.curenv c = some e → Eligible (t.envs e) :=
    fun hm hc => (huser _ hm hc [] t (.nil t)).eligible
  obtain ⟨hpf, -, hsys⟩ := ne_of_irq hirq
  cases step_effect hst with
  | trap _ heff =>
    cases heff with
    | collected hm hc _ hu hy => exact absurd (hnil hm hc) (not_eligible_of_freed hu hy)
    | faulted _ _ _ hno => exact absurd hno hpf
    | killed hm hc _ _ _ hu hy => exact absurd (hnil hm hc) (not_eligible_of_freed hu hy)
    | called _ _ _ hno => exact absurd hno hsys
    | left _ _ _ hno => exact absurd hno hsys
    | @timer cur hm hc _ ht hy =>
      refine ⟨ht, fun e _ hce => ⟨?_, hcallers hm hc⟩⟩
      obtain rfl : cur = e := Option.some.inj (hc.symm.trans hce)
      have hel := (hy.rescheduled cur).eligible.mp (hnil hm hc)
      rwa [saved_envs, if_pos rfl] at hel
    | woken hm ht => exact ⟨ht, fun e hm' => absurd (hm.symm.trans hm') (by decide)⟩

/-- An environment that another CPU runs as well does not wait at all. -/
theorem not_asleep_of_elsewhere (hy : Yields c (saved c cur tf s) t) (hE : Elsewhere s c cur) :
    ¬ Asleep cur t := by
  obtain ⟨k, hk, hku, hkc⟩ := hE
  have hkt : t.cpus k = s.cpus k := by
    rw [hy.cpus_of_ne hk]
    simp [saved, KState.setEnv, KState.setCpu, hk]
  intro hz
  refine hz k (by rw [hkt]; exact hku) ?_
  unfold KState.curenv at hkc ⊢
  rw [hkt, hkc]

theorem eligible_dir {Le : List EnvIdx} (hL : EnvList s Le) {x : EnvIdx}
    (hx : Eligible (s.envs x)) : (s.envs x).envPgdir ≠ none := by
  intro hn
  rw [Eligible, (hL.dir x).mp hn] at hx
  rcases hx with hx | hx <;> cases hx

theorem Eligible.not_dying {v : Env} (h : Eligible v) : v.envStatus ≠ .dying := by
  intro hd
  rw [Eligible, hd] at h
  rcases h with hx | hx <;> cases hx

/-- A timer interrupt of an eligible environment. -/
theorem transparent_of_timer {inp : Input} (hI : Inv True s) (ha : TrapAllowed s c tf)
    (hb : ∃ x, (s.envs x).envStatus.busy = true) (hno : tf.tfTrapno = irqTimer)
    (hm : (s.cpus c).mode = .user) (hc : s.curenv c = some cur) (hel : Eligible (s.envs cur))
    (hk : CallersOk s c inp tf) :
    Transparent s c inp tf := by
  obtain ⟨Le, hLe⟩ := hI.core.envs
  obtain ⟨b, hb⟩ := hb
  have hids := saved_ids s c cur tf
  obtain ⟨t, hy⟩ := yields_total (c := c) (s := saved c cur tf s)
    (fun x hx => by
      rw [(saved_alike tf).dir]
      refine eligible_dir hLe ?_
      rwa [Eligible, (hids x).1] at hx)
    ⟨b, by rwa [(hids b).1]⟩
  have hst : Step s (c, .trap inp tf) t :=
    trap_timer cur ha hno (fun _ => ⟨hc, hel.not_dying, hk⟩) (by rwa [if_pos hm])
  have hres := (hy.rescheduled cur).kept
  rw [saved_envs, if_pos rfl] at hres
  have helt : Eligible (t.envs cur) := hres.eligible hel
  refine ⟨t, hst, hy.mem.trans (saved_alike tf).mem, fun hh => absurd (hm.symm.trans hh) (by decide),
    fun e _ hce ls u hu => ?_⟩
  obtain rfl : cur = e := Option.some.inj (hc.symm.trans hce)
  by_cases hE : Elsewhere s c cur
  · have hz := not_asleep_of_elsewhere hy hE
    cases hu with
    | nil => exact ⟨hres.frame, hres.dir, hres.id, helt, fun l v hb => absurd hb.2.1 hz⟩
    | cons hst' _ => exact absurd hst'.1.2.1 hz
  · have hsafe : StepSafe True s (c, .trap inp tf) := by
      refine ⟨.inl trivial, fun cur' hm' hc' => ?_⟩
      obtain rfl : cur = cur' := Option.some.inj (hc.symm.trans hc')
      exact ⟨hE, fun _ hsys => absurd (hno.symm.trans hsys) (by decide)⟩
    obtain ⟨hIu, hk⟩ := run_waits (step_inv hI hsafe hst) helt hu
    have hall := hres.trans hk
    exact ⟨hall.frame, hall.dir, hall.id, hall.eligible hel,
      fun l v hb hst i j hne => step_edits hIu hb.1 hst hb.2.1 hne⟩

/-- External interrupts are transparent exactly on the timer's vector, unless another environment
    has marked or stopped the one that is interrupted, or that one holds a frame pointer that leads
    the kernel to an unmapped address. -/
theorem irq_transparent_iff {p : BootParams} {ls : List (CpuIdx × Event)} {inp : Input}
    (hr : BootRun (StepSafe True) p ls s) (ha : TrapAllowed s c tf)
    (hirq : tf.tfTrapno ∈ irqVectors) :
    Transparent s c inp tf ↔ tf.tfTrapno = irqTimer ∧
      ∀ e, (s.cpus c).mode = .user → s.curenv c = some e →
        Eligible (s.envs e) ∧ CallersOk s c inp tf := by
  refine ⟨fun h => h.timer ha hirq, ?_⟩
  rintro ⟨hno, hel⟩
  have hI : Inv True s := reach_inv hr
  have hmode := ha
  rcases hmode with ⟨hm, -⟩ | ⟨hm, -⟩
  · obtain ⟨cur, hc, -⟩ := (hI.cpus c).running hm
    exact transparent_of_timer hI ha (boot_busy hr) hno hm hc (hel cur hm hc).1 (hel cur hm hc).2
  · -- a halted CPU
    obtain ⟨Le, hLe⟩ := hI.core.envs
    have hb := boot_busy hr
    obtain ⟨t, hy⟩ := yields_total (c := c) (s := started c s) (fun _ hx => eligible_dir hLe hx) hb
    have hnu : ¬ (s.cpus c).mode = .user := by
      rw [hm]
      decide
    have hst : Step s (c, .trap inp tf) t :=
      trap_timer 0 ha hno (fun h => absurd h hnu) (by rwa [if_neg hnu])
    exact ⟨t, hst, hy.mem, fun _ => hy, fun e hm' => absurd hm' hnu⟩

end

/-- The frame of an interrupt of user code. -/
def irqFrame (n : Word) : Trapframe := { Trapframe.zero with tfTrapno := n, tfCs := gdUt ||| 3 }

/-- After boot the demonstration machine runs its first program. -/
theorem demo_running : ∃ s, BootRun (StepSafe True) demo [] s ∧ (s.cpus 1).mode = .user ∧
    s.curenv 1 = some 0 ∧ (s.envs 0).envStatus = .running := by
  obtain ⟨s, L, hboot, hb, -, -⟩ := demo_boots
  obtain ⟨v, -, hv⟩ := hb.first
  exact ⟨s, ⟨s, hboot, .nil s⟩, hb.bsp.1, hb.bsp.2, by rw [hv]⟩

/-- The timer interrupts the first program, which notices nothing. -/
theorem irq_transparent_iff_demo : ∃ s, BootRun (StepSafe True) demo [] s ∧
    (s.cpus 1).mode = .user ∧ s.curenv 1 = some 0 ∧
    Transparent s 1 .plain (irqFrame irqTimer) := by
  obtain ⟨s, hr, hm, hc, hrun⟩ := demo_running
  have hall : Transparent s 1 .plain (irqFrame irqTimer) ↔ _ :=
    irq_transparent_iff hr (Or.inl ⟨hm, rfl⟩) (by decide)
  refine ⟨s, hr, hm, hc, hall.mpr ⟨rfl, fun e _ hce => ⟨Or.inr ?_, .of_lt (by decide)⟩⟩⟩
  obtain rfl : (0 : EnvIdx) = e := Option.some.inj (hc.symm.trans hce)
  exact hrun

/-- A key that is pressed while the first program runs is not handled. -/
theorem keyboard_interrupt_noticed : ¬ ∀ (s : KState) (c : CpuIdx) (inp : Input) (tf : Trapframe),
    BootRun (StepSafe True) demo [] s → TrapAllowed s c tf → tf.tfTrapno ∈ irqVectors →
    (∀ e, (s.cpus c).mode = .user → s.curenv c = some e → (s.envs e).envStatus = .running) →
    Transparent s c inp tf := by
  intro hall
  obtain ⟨s, hr, hm, hc, hrun⟩ := demo_running
  have h := hall s 1 .plain (irqFrame 33) hr (Or.inl ⟨hm, rfl⟩) (by decide) fun e _ hce => by
    obtain rfl : (0 : EnvIdx) = e := Option.some.inj (hc.symm.trans hce)
    exact hrun
  have hno := (h.timer (Or.inl ⟨hm, rfl⟩) (by decide)).1
  exact absurd hno (by decide)

end Jos
