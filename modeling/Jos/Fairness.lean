import Jos.Exclusive

/-!
  No environment starves.

  On any number of CPUs, each search of `sched_yield` on one of them starts behind the last find on
  that CPU, whatever the others do in between. So while an environment waits, that CPU comes closer
  to it with every search, except when the environment that it was running is gone. -/

namespace Jos

open Lib RefCount

/-- A step that spares what other CPUs are running, while `e` waits. -/
def WaitsOver (e : EnvIdx) (s : KState) (l : CpuIdx × Event) (t : KState) : Prop :=
  restrict SparesRunning Step s l t ∧ Runnable s e ∧ Runnable t e

/-- In the step, `sched_yield` selects an environment on CPU `c`. -/
def Schedules (c : CpuIdx) (s : KState) (l : CpuIdx × Event) (t : KState) : Prop :=
  l.1 = c ∧ ∃ x, Selects s c l.2 x t

/-- The step ends the environment that CPU `c` was running: it exits or is destroyed. -/
def Loses (c : CpuIdx) (s : KState) (l : CpuIdx × Event) (_ : KState) : Prop :=
  l.1 = c ∧ ∃ cur u, s.curenv c = some cur ∧ Decides s c l.2 u ∧ u.curenv c = none

/-- A timer interrupt on CPU `c`. -/
def Ticks (c : CpuIdx) (_ : KState) (l : CpuIdx × Event) (_ : KState) : Prop :=
  l.1 = c ∧ ∃ inp tf, l.2 = .trap inp tf ∧ tf.tfTrapno = irqTimer

/-- How many slots CPU `c` has to go to reach `e`; more than there are, if it is idle. -/
def distance (s : KState) (c : CpuIdx) (e : EnvIdx) : Nat :=
  match s.curenv c with
  | none => 1024
  | some y => ahead y.val e

section

variable {s t u : KState} {c : CpuIdx} {cur e x : EnvIdx} {ev : Event} {l : CpuIdx × Event}

/-! ### Ids -/

theorem Runs.envId (h : Runs c x u t) (y : EnvIdx) : (t.envs y).envId = (u.envs y).envId := by
  obtain ⟨pd, -, rfl⟩ := h
  have hp : ∀ z, ((preempt c u).envs z).envId = (u.envs z).envId := by
    intro z
    rw [preempt_envs]
    split <;> rfl
  rw [resume_envs]
  split
  · rename_i hy
    rw [hy]
    exact hp x
  · exact hp y

theorem IdsOk.runs (hi : IdsOk u) (h : Runs c x u t) (hx : (u.envs x).envStatus ≠ .free) :
    IdsOk t := by
  intro y hy
  rw [h.envId]
  refine hi y fun hf => hy ?_
  have hyx : y ≠ x := fun hyx => hx (hyx ▸ hf)
  obtain ⟨pd, -, rfl⟩ := h
  rw [resume_envs, if_neg hyx, preempt_envs, if_neg fun hr => by rw [hf] at hr; cases hr.2]
  exact hf

theorem IdsOk.yields (hi : IdsOk u) (h : Yields c u t) : IdsOk t := by
  cases h with
  | pick hp hr =>
    have hrun := schedPick_runnable hp
    exact hi.runs hr (by simp [hrun])
  | stay _ _ hs hr => exact hi.runs hr (by simp [hs])
  | halt _ _ _ => exact hi.congr rfl

theorem IdsOk.returns (hi : IdsOk u) (h : Returns c u t) : IdsOk t := by
  cases h with
  | stay _ hs hr => exact hi.runs hr (by simp [hs])
  | yield _ hy => exact hi.yields hy

/-- Every step keeps the ids in order. -/
theorem IdsOk.step (hi : IdsOk s) (hx : Exclusive Every s) (hst : Step s l t) : IdsOk t := by
  obtain ⟨c, ev⟩ := l
  have hgone : ∀ {m v : KState} {y : EnvIdx}, IdsOk m → SameEnvs (Jos.freed y m) v →
      Yields c (v.setCurenv c none) t → IdsOk t := by
    intro m v y hm hv hy
    have hvi : IdsOk (v.setCurenv c none) := (hm.freed.congr hv.envs).congr rfl
    exact hvi.yields hy
  have hstart : IdsOk (started c s) := hi.congr rfl
  cases step_effect hst with
  | store _ ho => exact hi.congr ho.envs
  | start _ hy => exact hi.yields hy
  | @trap inp tf _ he =>
    cases he with
    | collected _ _ _ hu hy => exact hgone hstart hu hy
    | @faulted cur u hm hc _ _ _ hu hr =>
      have hf : (s.envs cur).envStatus ≠ .free := (hx.status c cur trivial hm hc).1
      have hst : ((faulted cur tf (started c s)).envs cur).envStatus = (s.envs cur).envStatus := by
        simp [faulted, started, KState.setEnv, KState.setCpu]
      have hfi : IdsOk (faulted cur tf (started c s)) := hstart.setEnv fun _ => hi cur hf
      refine (hfi.congr hu.envs).runs hr ?_
      rw [hu.envs, hst]
      exact hf
    | killed _ _ _ _ _ hu hy => exact hgone hi.saved hu hy
    | @called cur u w hm hc _ _ hd hr =>
      have hf : ((Jos.saved c cur tf s).envs cur).envStatus ≠ .free := by
        rw [(saved_ids s c cur tf cur).1]
        exact (hx.status c cur trivial hm hc).1
      have ha : IdsOk (answered u cur w) :=
        (hd.idsOk hi.saved hf).setEnv fun _ => hd.slot (hi.saved cur hf)
      exact ha.returns hr
    | @left cur hm hc _ _ hl =>
      have hf : ((Jos.saved c cur tf s).envs cur).envStatus ≠ .free := by
        rw [(saved_ids s c cur tf cur).1]
        exact (hx.status c cur trivial hm hc).1
      cases hl with
      | died _ hu hy => exact hgone hi.saved hu hy
      | yielded _ hy => exact hi.saved.yields hy
      | received _ hy =>
        have hr : IdsOk (receiving (Jos.saved c cur tf s) cur (Call.ofTf tf).a1) :=
          hi.saved.setEnv fun _ => hi.saved cur hf
        exact hr.yields hy
    | timer _ _ _ _ hy => exact hi.saved.yields hy
    | woken _ _ hy => exact hstart.yields hy

/-! ### One search -/

/-- The search starts behind the environment that the CPU was running, unless that one is gone. -/
theorem Decides.behind (h : Decides s c ev u) (hx : Exclusive Every s) (hi : IdsOk s)
    (hc : u.curenv c = some cur) : s.curenv c = some cur ∧ schedBegin u c = cur.val + 1 := by
  have hgone : ∀ {v : KState}, (v.setCurenv c none).curenv c ≠ some cur := by
    intro v hv
    simp [KState.setCurenv, KState.curenv, KState.setCpu] at hv
  have hbegin : envx (u.envs cur).envId = cur → schedBegin u c = cur.val + 1 := by
    intro hid
    simp only [schedBegin, hc, hid]
  have hsav : ∀ {y : EnvIdx} (tf : Trapframe), InUser s c y →
      (saved c y tf s).curenv c = some y ∧ envx ((saved c y tf s).envs y).envId = y ∧
        ((saved c y tf s).envs y).envStatus ≠ .free := by
    intro y tf hy
    have hf := (hx.status c y trivial hy.mode hy.current).1
    obtain ⟨h1, h2, -⟩ := saved_ids s c y tf y
    rw [h1, h2]
    exact ⟨(saved_curenv tf c).trans hy.current, hi y hf, hf⟩
  cases h with
  | collected => exact absurd hc hgone
  | killed => exact absurd hc hgone
  | died => exact absurd hc hgone
  | @yielded _ tf y hy _ _ =>
    obtain ⟨h1, h2, -⟩ := hsav tf hy
    obtain rfl := Option.some.inj (h1.symm.trans hc)
    exact ⟨hy.current, hbegin h2⟩
  | @timer _ tf y hy _ =>
    obtain ⟨h1, h2, -⟩ := hsav tf hy
    obtain rfl := Option.some.inj (h1.symm.trans hc)
    exact ⟨hy.current, hbegin h2⟩
  | @received _ tf y hy _ _ =>
    obtain ⟨h1, h2, -⟩ := hsav tf hy
    obtain rfl := Option.some.inj (h1.symm.trans hc)
    refine ⟨hy.current, hbegin ?_⟩
    simp only [receiving, KState.setEnv, Function.update_self]
    exact h2
  | @stopped _ tf y m w hy _ hd _ =>
    obtain ⟨h1, h2, -⟩ := hsav tf hy
    have hcm : m.curenv c = some y := by
      rw [KState.curenv, hd.one.1]
      exact h1
    obtain rfl := Option.some.inj (hcm.symm.trans hc)
    refine ⟨hy.current, hbegin ?_⟩
    simp only [answered, KState.setEnv, Function.update_self]
    exact hd.slot h2
  | woken hm _ =>
    have hn := hx.idle c trivial (by rw [hm]; simp)
    have : (started c s).curenv c = s.curenv c := by
      simp [started, KState.curenv, KState.setCpu]
    rw [this, hn] at hc
    cases hc
  | start hm =>
    rw [hx.idle c trivial (by rw [hm]; simp)] at hc
    cases hc

/-- An environment that still waits after the CPU has left the kernel was waiting when the scheduler was
    called. -/
theorem Runs.waited (h : Runs c x u t) (he : Runnable t e) (hc : u.curenv c ≠ some e) :
    Runnable u e ∧ x ≠ e := by
  have hxe : x ≠ e := by
    rintro rfl
    have := h.inUser.2
    rw [Runnable, this] at he
    cases he
  obtain ⟨pd, -, rfl⟩ := h
  rw [Runnable, resume_envs, if_neg (Ne.symm hxe), preempt_envs, if_neg fun hr => hc hr.1] at he
  exact ⟨he, hxe⟩

/-- While `e` waits, `sched_yield` selects something. -/
theorem Yields.picks (h : Yields c u t) (he : Runnable t e) (hc : u.curenv c ≠ some e) :
    ∃ x, schedPick u (schedBegin u c) = some x ∧ Runs c x u t := by
  cases h with
  | pick hp hr => exact ⟨_, hp, hr⟩
  | stay hp _ _ hr => exact absurd (hr.waited he hc).1 (schedPick_none (schedBegin_le u c) hp e)
  | halt hp _ _ => exact absurd he (schedPick_none (schedBegin_le u c) hp e)

/-- The environment that a CPU runs does not wait. -/
theorem Exclusive.not_waiting (hx : Exclusive Every s) (he : Runnable s e) : s.curenv c ≠ some e := by
  intro hc
  by_cases hm : (s.cpus c).mode = .user
  · exact (hx.status c e trivial hm hc).2 he
  · rw [hx.idle c trivial hm] at hc
    cases hc

theorem Decides.not_waiting (h : Decides s c ev u) (hx : Exclusive Every s) (hi : IdsOk s)
    (he : Runnable s e) : u.curenv c ≠ some e :=
  fun hc => hx.not_waiting he (h.behind hx hi hc).1

/-- A step of a CPU on which the scheduler is not called keeps it where it is. -/
theorem step_decides (hst : Step s (c, ev) t) :
    (∃ u, Decides s c ev u ∧ Yields c u t) ∨ t.curenv c = s.curenv c := by
  cases step_effect hst with
  | store _ ho => exact .inr (congrFun ho.curenv c)
  | start hm hy => exact .inl ⟨s, .start hm, hy⟩
  | @trap inp tf _ he =>
    cases he with
    | collected hm hc hd hu hy => exact .inl ⟨_, .collected hm hc hd hu, hy⟩
    | faulted _ hc _ _ _ _ hr => exact .inr (hr.inUser.1.current.trans hc.symm)
    | killed hm hc hd h1 h2 hu hy => exact .inl ⟨_, .killed ⟨hm, hc, hd⟩ h1 h2 hu, hy⟩
    | @called cur u w hm hc hd hs hdone hret =>
      have hcu : (answered u cur w).curenv c = some cur := by
        show u.curenv c = some cur
        rw [KState.curenv, hdone.one.1]
        exact (saved_curenv tf c).trans hc
      have hret' : Returns c (answered u cur w) t := hret
      cases hret' with
      | stay hcx _ hr =>
        exact .inr (hr.inUser.1.current.trans (hcx.symm.trans (hcu.trans hc.symm)))
      | yield hno hy => exact .inl ⟨_, .stopped ⟨hm, hc, hd⟩ hs hdone (hno cur hcu), hy⟩
    | @left cur hm hc hd hs hleft =>
      have hx : InUser s c cur := ⟨hm, hc, hd⟩
      cases hleft with
      | died hdes hu hy => exact .inl ⟨_, .died hx hs hdes hu, hy⟩
      | yielded h10 hy => exact .inl ⟨_, .yielded hx hs h10, hy⟩
      | received h12 hy => exact .inl ⟨_, .received hx hs h12, hy⟩
    | timer hm hc hd ht hy => exact .inl ⟨_, .timer ⟨hm, hc, hd⟩ ht, hy⟩
    | woken hm ht hy => exact .inl ⟨_, .woken hm ht, hy⟩

/-- Every timer interrupt calls the scheduler. -/
theorem timer_decides {inp : Input} {tf : Trapframe} (ht : tf.tfTrapno = irqTimer)
    (hst : Step s (c, .trap inp tf) t) : ∃ u, Decides s c (.trap inp tf) u ∧ Yields c u t := by
  have h14 : irqTimer ≠ tPgflt := by decide
  have h48 : irqTimer ≠ tSyscall := by decide
  cases step_effect hst with
  | trap _ he =>
    cases he with
    | collected hm hc hd hu hy => exact ⟨_, .collected hm hc hd hu, hy⟩
    | faulted _ _ _ hno _ _ _ => exact absurd (ht.symm.trans hno) h14
    | killed _ _ _ _ hno _ _ => exact absurd ht hno
    | called _ _ _ hno _ _ => exact absurd (ht.symm.trans hno) h48
    | left _ _ _ hno _ => exact absurd (ht.symm.trans hno) h48
    | timer hm hc hd _ hy => exact ⟨_, .timer ⟨hm, hc, hd⟩ ht, hy⟩
    | woken hm _ hy => exact ⟨_, .woken hm ht, hy⟩

/-! ### Distances -/

theorem distance_le (s : KState) (c : CpuIdx) (e : EnvIdx) : distance s c e ≤ 1024 := by
  unfold distance
  split
  · exact le_refl _
  · rename_i y _
    have := y.isLt
    have := e.isLt
    unfold ahead
    split <;> omega

theorem distance_of_some (h : s.curenv c = some x) : distance s c e = ahead x.val e := by
  simp only [distance, h]

theorem ahead_lt (x e : EnvIdx) : ahead x.val e < 1024 := by
  have := x.isLt
  have := e.isLt
  unfold ahead
  split <;> omega

/-- A CPU that does not run `e` has some way to go. -/
theorem distance_pos (h : s.curenv c ≠ some e) : 0 < distance s c e := by
  unfold distance
  split
  · omega
  · rename_i y hy
    have hne : y.val ≠ e.val := fun hv => h (hy.trans (congrArg some (Fin.ext hv)))
    have := y.isLt
    unfold ahead
    split <;> omega

open Classical in
/-- While `e` waits, every selection brings the CPU closer to it, but for the loss of the environment
    that it was running. -/
theorem WaitsOver.closer (h : WaitsOver e s l t) (hx : Exclusive Every s) (hi : IdsOk s) :
    (distance t c e + if Schedules c s l t then 1 else 0) ≤
      distance s c e + if Loses c s l t then 1023 else 0 := by
  obtain ⟨⟨-, hst⟩, hes, het⟩ := h
  obtain ⟨k, ev⟩ := l
  by_cases hk : k = c
  · subst hk
    by_cases hsel : Schedules k s (k, ev) t
    · rw [if_pos hsel]
      obtain ⟨-, x, u, hd, hp⟩ := hsel
      have hr : Runs k x u t := by
        cases hp with
        | next _ hr => exact hr
        | stay _ _ _ hr => exact hr
      obtain ⟨heu, -⟩ := hr.waited het (hd.not_waiting hx hi hes)
      rw [distance_of_some hr.inUser.1.current]
      have hlt := ahead_lt x e
      cases huc : u.curenv k with
      | none =>
        cases hsc : s.curenv k with
        | none =>
          have hidle : distance s k e = 1024 := by simp only [distance, hsc]
          omega
        | some y =>
          have hpos := distance_pos (hx.not_waiting (c := k) hes)
          rw [if_pos ⟨rfl, y, u, hsc, hd, huc⟩]
          omega
      | some y =>
        obtain ⟨hsc, hb⟩ := hd.behind hx hi huc
        have hye : y ≠ e := fun hye => hx.not_waiting hes (hye ▸ hsc)
        cases hp with
        | next hpick _ =>
          have hnear := schedPick_nearest (schedBegin_le u k) hpick
          rw [hb] at hnear
          have hcl := hnear.closer heu hye
          rw [distance_of_some hsc]
          omega
        | stay hn _ _ _ => exact absurd heu (schedPick_none (schedBegin_le u k) hn e)
    · rw [if_neg hsel]
      rcases step_decides hst with ⟨u, hd, hy⟩ | hsame
      · obtain ⟨x, hp, hr⟩ := hy.picks het (hd.not_waiting hx hi hes)
        exact absurd ⟨rfl, x, u, hd, .next hp hr⟩ hsel
      · have hdist : distance t k e = distance s k e := by simp only [distance, hsame]
        omega
  · have hcpu : t.curenv c = s.curenv c := by
      rw [KState.curenv, step_cpus_of_ne hst (Ne.symm hk), KState.curenv]
    have hdist : distance t c e = distance s c e := by simp only [distance, hcpu]
    rw [if_neg fun hs => hk hs.1, if_neg fun hl => hk hl.1, hdist]

theorem WaitsOver.ticks (h : WaitsOver e s l t) (hx : Exclusive Every s) (hi : IdsOk s)
    (ht : Ticks c s l t) : Schedules c s l t := by
  obtain ⟨⟨-, hst⟩, hes, het⟩ := h
  obtain ⟨k, ev⟩ := l
  obtain ⟨hk, inp, tf, hev, hirq⟩ := ht
  simp only at hk hev
  subst hk hev
  obtain ⟨u, hd, hy⟩ := timer_decides hirq hst
  obtain ⟨x, hp, hr⟩ := hy.picks het (hd.not_waiting hx hi hes)
  exact ⟨rfl, x, u, hd, .next hp hr⟩

end

/-- On any number of CPUs: while an environment waits, a CPU selects at most 1023 others, and 1023
    more for each environment that exits or is destroyed while that CPU runs it. Every timer
    interrupt is such a selection. -/
theorem bounded_waiting {p : BootParams} {ls ls' : List (CpuIdx × Event)} {s t : KState}
    {c : CpuIdx} {e : EnvIdx} {n d k : Nat} (h : BootRun SparesRunning p ls s) (he : Runnable s e)
    (hn : Counted (WaitsOver e) (Schedules c) s ls' n t)
    (hd : Counted (WaitsOver e) (Loses c) s ls' d t)
    (hk : Counted (WaitsOver e) (Ticks c) s ls' k t) : k ≤ n ∧ n ≤ 1023 * (d + 1) := by
  classical
  obtain ⟨s0, hboot, hrun⟩ := h
  have hb := boot_booted hboot
  have hs : Exclusive Every s ∧ IdsOk s :=
    hrun.invariant (I := fun s => Exclusive Every s ∧ IdsOk s)
      (fun _ _ _ hI hst => ⟨hI.1.step hst.1 hst.2, hI.2.step hI.1 hst.2⟩)
      ⟨hb.exclusive, hb.alone.ids⟩
  have hdet : ∀ s l t t', WaitsOver e s l t → WaitsOver e s l t' → t = t' :=
    fun _ _ _ _ h1 h2 => Option.some.inj (h1.1.2.symm.trans h2.1.2)
  have hI : ∀ s l t, (Exclusive Every s ∧ IdsOk s) ∧ Runnable s e → WaitsOver e s l t →
      (Exclusive Every t ∧ IdsOk t) ∧ Runnable t e := fun _ _ _ hI hst =>
    ⟨⟨hI.1.1.step hst.1.1 hst.1.2, hI.1.2.step hI.1.1 hst.1.2⟩, hst.2.2⟩
  have hclose := Counted.potential (f := fun s => distance s c e) hdet hI
    (fun s l t hs hst => hst.closer (c := c) hs.1.1 hs.1.2) ⟨hs, he⟩ hn hd
  have htick := Counted.potential (f := fun _ => 0) (b := 1) hdet hI
    (fun s l t hs hst => by
      by_cases ht : Ticks c s l t
      · simp [if_pos ht, if_pos (hst.ticks hs.1.1 hs.1.2 ht)]
      · simp [if_neg ht]) ⟨hs, he⟩ hk hn
  obtain ⟨⟨hxt, -⟩, het⟩ := hn.run.invariant hI ⟨hs, he⟩
  have hle := distance_le s c e
  have hpos := distance_pos (hxt.not_waiting (c := c) het)
  refine ⟨by omega, ?_⟩
  rw [Nat.mul_add]
  omega

/-- The timer interrupts the first of four programs; the last one waits on. -/
theorem bounded_waiting_demo : ∃ s t, BootRun SparesRunning fourPrograms [] s ∧ Runnable s 3 ∧
    Step s (0, .trap .plain (irqFrame irqTimer)) t ∧ Runnable t 3 ∧
    ∃ n d, 1 ≤ n ∧ n ≤ 1023 * (d + 1) := by
  obtain ⟨s, hboot, h⟩ := fourPrograms_boot
  obtain ⟨t, ⟨hst, -⟩, ht⟩ := h.preempted (z := 1) (by simp) (by simp [ahead])
  have hr : BootRun SparesRunning fourPrograms [] s := ⟨s, hboot, .nil s⟩
  have hes : Runnable s 3 := (h.waits 3).mpr (by decide)
  have het : Runnable t 3 := (ht.waits 3).mpr (by decide)
  have hsp : SparesRunning s (0, .trap .plain (irqFrame irqTimer)) := by
    rintro _ _ _ _ ⟨⟩ - hx
    exact absurd hx (by decide)
  have hw : WaitsOver 3 s (0, .trap .plain (irqFrame irqTimer)) t := ⟨⟨hsp, hst⟩, hes, het⟩
  have hk : Counted (WaitsOver 3) (Ticks 0) s [(0, .trap .plain (irqFrame irqTimer))] 1 t :=
    .hit hw ⟨rfl, _, _, rfl, rfl⟩ (.nil t)
  obtain ⟨n, hn⟩ := hk.run.counted (Schedules 0)
  obtain ⟨d, hd⟩ := hk.run.counted (Loses 0)
  exact ⟨s, t, hr, hes, hst, het, n, d, bounded_waiting hr hes hn hd hk⟩

end Jos
