import Jos.Lib.Circular
import Jos.EnvIds
import Jos.Irq

/-!
  Round-robin scheduling on one CPU.

  `sched_yield` starts its search just after `curenv`. That is the environment that was running,
  except after it exited or was destroyed: then `curenv` is unset, and the search starts over at
  slot 0. -/

namespace Jos

open Lib RefCount

/-- `cur` runs in user mode on `c` and is not marked as dying. -/
structure InUser (s : KState) (c : CpuIdx) (cur : EnvIdx) : Prop where
  mode : (s.cpus c).mode = .user
  current : s.curenv c = some cur
  live : (s.envs cur).envStatus ≠ .dying

/-- The caller's state after a call that returns `w`. -/
def answered (u : KState) (cur : EnvIdx) (w : Word) : KState :=
  u.setEnv cur { u.envs cur with envTf := (u.envs cur).envTf.withEax w }

/-- The kernel entries from `s` in which `sched_yield` is called, with the state `u` that it is
    called in. -/
inductive Decides (s : KState) (c : CpuIdx) : Event → KState → Prop
  -- the environment that was running is gone, and `curenv` with it
  | collected {inp : Input} {tf : Trapframe} {cur : EnvIdx} {u : KState} :
      (s.cpus c).mode = .user → s.curenv c = some cur → (s.envs cur).envStatus = .dying →
      SameEnvs (freed cur (started c s)) u → Decides s c (.trap inp tf) (u.setCurenv c none)
  | killed {inp : Input} {tf : Trapframe} {cur : EnvIdx} {u : KState} : InUser s c cur →
      tf.tfTrapno ≠ tSyscall → tf.tfTrapno ≠ irqTimer → SameEnvs (freed cur (saved c cur tf s)) u →
      Decides s c (.trap inp tf) (u.setCurenv c none)
  | died {inp : Input} {tf : Trapframe} {cur : EnvIdx} {u : KState} : InUser s c cur →
      tf.tfTrapno = tSyscall →
      (Call.ofTf tf).Destroys (saved c cur tf s) cur cur ∨ (Call.ofTf tf).no = 0 →
      SameEnvs (freed cur (saved c cur tf s)) u → Decides s c (.trap inp tf) (u.setCurenv c none)
  -- it gives way
  | yielded {inp : Input} {tf : Trapframe} {cur : EnvIdx} : InUser s c cur →
      tf.tfTrapno = tSyscall → (Call.ofTf tf).no = 10 →
      Decides s c (.trap inp tf) (saved c cur tf s)
  | received {inp : Input} {tf : Trapframe} {cur : EnvIdx} : InUser s c cur →
      tf.tfTrapno = tSyscall → (Call.ofTf tf).no = 12 →
      Decides s c (.trap inp tf) (receiving (saved c cur tf s) cur (Call.ofTf tf).a1)
  | timer {inp : Input} {tf : Trapframe} {cur : EnvIdx} : InUser s c cur →
      tf.tfTrapno = irqTimer → Decides s c (.trap inp tf) (saved c cur tf s)
  -- its own call has stopped it
  | stopped {inp : Input} {tf : Trapframe} {cur : EnvIdx} {u : KState} {w : Word} : InUser s c cur →
      tf.tfTrapno = tSyscall → CallDone (saved c cur tf s) c cur (Call.ofTf tf) u →
      ((answered u cur w).envs cur).envStatus ≠ .running →
      Decides s c (.trap inp tf) (answered u cur w)
  -- the CPU was idle
  | woken {inp : Input} {tf : Trapframe} : (s.cpus c).mode = .halted → tf.tfTrapno = irqTimer →
      Decides s c (.trap inp tf) (started c s)
  | start : (s.cpus c).mode = .starting → Decides s c .start s

/-- `sched_yield`, called in state `u`, switches to `x`. -/
inductive Picks (c : CpuIdx) (u : KState) (x : EnvIdx) (t : KState) : Prop
  | next : schedPick u (schedBegin u c) = some x → Runs c x u t → Picks c u x t
  | stay : schedPick u (schedBegin u c) = none → u.curenv c = some x →
      (u.envs x).envStatus = .running → Runs c x u t → Picks c u x t

/-- In the step from `s` to `t`, `sched_yield` selects `x`. -/
def Selects (s : KState) (c : CpuIdx) (ev : Event) (x : EnvIdx) (t : KState) : Prop :=
  ∃ u, Decides s c ev u ∧ Picks c u x t

/-- A step of CPU `c`, labelled with the environment that `sched_yield` selects in it. -/
def Turn (c : CpuIdx) (s : KState) (l : Event × Option EnvIdx) (t : KState) : Prop :=
  Step s (c, l.1) t ∧ ∀ x, l.2 = some x ↔ Selects s c l.1 x t

def Runnable (s : KState) (e : EnvIdx) : Prop := (s.envs e).envStatus = .runnable

/-- If the environment that runs is gone after this step, those that wait are all in slots above its
    own, or all below. -/
def Orderly (c : CpuIdx) (s : KState) (ev : Event) : Prop :=
  ∀ cur u, s.curenv c = some cur → Decides s c ev u → u.curenv c = none →
    (∀ y, Runnable s y → cur < y) ∨ ∀ y, Runnable s y → y < cur

/-- Ids end with their slot. -/
def IdsOk (s : KState) : Prop :=
  ∀ e, (s.envs e).envStatus ≠ .free → envx (s.envs e).envId = e

/-- The only CPU runs an environment, or it is halted and none waits. -/
structure Alone (c : CpuIdx) (s : KState) : Prop where
  ids : IdsOk s
  cpu : (∃ cur, InUser s c cur ∧ (s.envs cur).envStatus = .running) ∨
    (s.cpus c).mode = .halted ∧ s.curenv c = none ∧ ∀ e, ¬ Runnable s e

section

variable {s t u : KState} {c : CpuIdx} {cur e x : EnvIdx} {ev : Event} {tf : Trapframe}

/-! ### Ids -/

theorem IdsOk.congr (h : IdsOk s) (he : t.envs = s.envs) : IdsOk t := by
  unfold IdsOk
  rw [he]
  exact h

theorem IdsOk.setEnv (h : IdsOk s) {v : Env}
    (hv : v.envStatus ≠ .free → envx v.envId = e) : IdsOk (s.setEnv e v) := by
  intro x hx
  by_cases hxe : x = e
  · subst hxe
    simp only [KState.setEnv, Function.update_self] at hx ⊢
    exact hv hx
  · rw [setEnv_envs_of_ne hxe] at hx ⊢
    exact h x hx

theorem IdsOk.saved (h : IdsOk s) : IdsOk (saved c cur tf s) := by
  intro x hx
  obtain ⟨h1, h2, -⟩ := saved_ids s c cur tf x
  rw [h1] at hx
  rw [h2]
  exact h x hx

theorem IdsOk.freed (h : IdsOk s) : IdsOk (freed e s) :=
  (h.setEnv (e := e) (v := { s.envs e with
    envPgdir := none, envStatus := .free, envLink := s.envFreeList }) fun hx => absurd rfl hx).congr
    rfl

/-- A call that returns keeps the ids apart. -/
theorem CallDone.idsOk {call : Call} (h : CallDone s c cur call t) (hi : IdsOk s)
    (hcur : (s.envs cur).envStatus ≠ .free) : IdsOk t := by
  have hown : ∀ x {v : Env}, (s.envs x).envStatus ≠ .free → SameEnvs (s.setEnv x v) t →
      v.envId = (s.envs x).envId → IdsOk t := by
    intro x v hx ht hv
    exact (hi.setEnv fun _ => by rw [hv]; exact hi x hx).congr ht.envs
  cases h with
  | nothing ht => exact hi.congr ht.envs
  | @marked x _ hr _ ht => exact hown x (by rw [hr]; simp) ht rfl
  | freed _ _ _ ht => exact hi.freed.congr ht.envs
  | @forked x p _ _ ht =>
    refine IdsOk.congr (s := Jos.forked s cur x p) ?_ ht.envs
    refine IdsOk.setEnv (IdsOk.congr (hi.setEnv (e := x) (v := newEnv s x (s.envs cur).envId p)
      fun _ => envx_nextGeneration _ x) rfl) fun _ => ?_
    simp only [KState.setEnv, Function.update_self]
    exact envx_nextGeneration _ x
  | status _ hl _ ht => exact hown _ (lookupEnv_live hcur hl) ht rfl
  | upcall _ hl ht => exact hown _ (lookupEnv_live hcur hl) ht rfl
  | sent _ hl _ ht => exact hown _ (lookupEnv_live hcur hl) ht rfl

/-- The id of a slot keeps ending with it. -/
theorem CallDone.slot {call : Call} (h : CallDone s c cur call t) (hi : envx (s.envs e).envId = e) :
    envx (t.envs e).envId = e := by
  have hown : ∀ x {v : Env}, t.envs = (s.setEnv x v).envs →
      v.envId = (s.envs x).envId → envx (t.envs e).envId = e := by
    intro x v ht hv
    rw [ht]
    by_cases hx : e = x
    · subst hx
      simp only [KState.setEnv, Function.update_self]
      rw [hv, hi]
    · rw [setEnv_envs_of_ne hx, hi]
  cases h with
  | nothing ht => rw [ht.envs, hi]
  | marked _ _ _ ht => exact hown _ ht.envs rfl
  | freed _ _ _ ht => exact hown _ ht.envs rfl
  | @forked x p _ _ ht =>
    rw [ht.envs]
    by_cases hx : e = x
    · subst hx
      simp only [Jos.forked, KState.setEnv, Function.update_self]
      exact envx_nextGeneration _ e
    · simp [Jos.forked, KState.setEnv, hx, hi]
  | status _ _ _ ht => exact hown _ ht.envs rfl
  | upcall _ _ ht => exact hown _ ht.envs rfl
  | sent _ _ _ ht => exact hown _ ht.envs rfl

theorem Runs.idsOk (h : Runs c e s t) (he : Eligible (s.envs e)) (hi : IdsOk s) : IdsOk t := by
  have hr : ∀ x, Rescheduled (s.envs x) (t.envs x) := fun x => h.rescheduled fun hx => hx ▸ he
  intro x hx
  rw [(hr x).kept.id]
  refine hi x fun hfree => ?_
  obtain ⟨pd, -, rfl⟩ := h
  rw [resume_envs] at hx
  split at hx
  · rename_i hxe
    subst hxe
    rcases he with he | he <;> rw [hfree] at he <;> cases he
  · rw [preempt_envs, if_neg fun hy => by rw [hfree] at hy; cases hy.2] at hx
    exact hx hfree

/-! ### Decisions -/

/-- A call that returns changes one environment at most. -/
theorem CallDone.one {call : Call} (h : CallDone s c cur call t) :
    t.cpus = s.cpus ∧ ∃ x v, t.envs = Function.update s.envs x v := by
  cases h with
  | nothing ht => exact ⟨ht.cpus, cur, s.envs cur, by rw [ht.envs, Function.update_eq_self]⟩
  | marked _ _ _ ht => exact ⟨ht.cpus, _, _, ht.envs⟩
  | freed _ _ _ ht => exact ⟨ht.cpus, _, _, ht.envs⟩
  | @forked x p _ _ ht =>
    refine ⟨ht.cpus, x, (Jos.forked s cur x p).envs x, ht.envs.trans (funext fun y => ?_)⟩
    by_cases hy : y = x
    · subst hy
      rw [Function.update_self]
    · simp [Jos.forked, KState.setEnv, hy]
  | status _ _ _ ht => exact ⟨ht.cpus, _, _, ht.envs⟩
  | upcall _ _ ht => exact ⟨ht.cpus, _, _, ht.envs⟩
  | sent _ _ _ ht => exact ⟨ht.cpus, _, _, ht.envs⟩

/-- What `sched_yield` finds on a single CPU. -/
structure Decided (s : KState) (c : CpuIdx) (u : KState) : Prop where
  ids : IdsOk u
  waiting : ∀ e, Runnable s e → Runnable u e
  current : ∀ cur, u.curenv c = some cur → s.curenv c = some cur ∧ envx (u.envs cur).envId = cur
  reset : ∀ cur, s.curenv c = some cur → u.curenv c = none →
    ∀ y, Runnable u y → Runnable s y

/-- The environment that was running is freed. -/
theorem Decided.gone {m : KState} (hm : IdsOk m)
    (hsame : ∀ x, (m.envs x).envStatus = (s.envs x).envStatus) (hc : s.curenv c = some cur)
    (hrun : ¬ Runnable s cur) (hu : SameEnvs (freed cur m) u) : Decided s c (u.setCurenv c none) := by
  have hnone : (u.setCurenv c none).curenv c = none := by
    simp [KState.setCurenv, KState.curenv, KState.setCpu]
  have hst : ∀ x, x ≠ cur → ((u.setCurenv c none).envs x).envStatus = (s.envs x).envStatus := by
    intro x hx
    show (u.envs x).envStatus = _
    rw [hu.envs, ← hsame x]
    simp [freed, KState.setEnv, hx]
  have hfree : ((u.setCurenv c none).envs cur).envStatus = .free := by
    show (u.envs cur).envStatus = _
    rw [hu.envs]
    simp [freed, KState.setEnv]
  refine ⟨hm.freed.congr hu.envs, fun e he => ?_, fun x hx => ?_, fun _ _ _ y hy => ?_⟩
  · have hne : e ≠ cur := fun hx => hrun (hx ▸ he)
    exact (hst e hne).trans he
  · rw [hnone] at hx
    cases hx
  · have hne : y ≠ cur := by
      rintro rfl
      rw [Runnable, hfree] at hy
      cases hy
    exact (hst y hne).symm.trans hy

theorem Decides.decided (h : Decides s c ev u) (ha : Alone c s) : Decided s c u := by
  have hrun : ∀ x, (s.cpus c).mode = .user → s.curenv c = some x →
      (s.envs x).envStatus = .running := by
    intro x hm hx
    rcases ha.cpu with ⟨cur, hu, hr⟩ | ⟨hh, -⟩
    · obtain rfl := Option.some.inj (hx.symm.trans hu.current)
      exact hr
    · rw [hm] at hh
      cases hh
  have hno : ∀ {x}, (s.cpus c).mode = .user → s.curenv c = some x → ¬ Runnable s x := by
    intro x hm hx hr
    have := hrun x hm hx
    rw [Runnable, this] at hr
    cases hr
  have hsav : ∀ {x : EnvIdx} {tf : Trapframe} (y : EnvIdx),
      ((saved c x tf s).envs y).envStatus = (s.envs y).envStatus :=
    fun y => (saved_ids s c _ _ y).1
  have hkept : ∀ {x : EnvIdx} {tf : Trapframe}, InUser s c x → Decided s c (saved c x tf s) := by
    intro x tf hx
    have hc : (saved c x tf s).curenv c = some x := (saved_curenv tf c).trans hx.current
    refine ⟨ha.ids.saved, fun e he => (hsav e).trans he, fun y hy => ?_, fun _ _ hn => ?_⟩
    · obtain rfl := Option.some.inj (hc.symm.trans hy)
      refine ⟨hx.current, ?_⟩
      rw [(saved_ids s c x tf x).2.1]
      exact ha.ids x (by rw [hrun x hx.mode hx.current]; simp)
    · rw [hc] at hn
      cases hn
  have hother : ∀ {x : EnvIdx} {m v : KState}, InUser s c x → (∀ y, y ≠ x → v.envs y = m.envs y) →
      (∀ y, (m.envs y).envStatus = (s.envs y).envStatus) → v.curenv c = some x → IdsOk v →
      envx (v.envs x).envId = x → Decided s c v := by
    intro x m v hx henv hm hc hi hslot
    refine ⟨hi, fun e he => ?_, fun y hy => ?_, fun _ _ hn => ?_⟩
    · have hne : e ≠ x := fun h => hno hx.mode hx.current (h ▸ he)
      rw [Runnable, henv e hne, hm e]
      exact he
    · obtain rfl := Option.some.inj (hc.symm.trans hy)
      exact ⟨hx.current, hslot⟩
    · rw [hc] at hn
      cases hn
  have hslot : ∀ {x : EnvIdx} {tf : Trapframe}, InUser s c x →
      envx ((saved c x tf s).envs x).envId = x := by
    intro x tf hx
    rw [(saved_ids s c x tf x).2.1]
    exact ha.ids x (by rw [hrun x hx.mode hx.current]; simp)
  have hsc : ∀ {x : EnvIdx} {tf : Trapframe}, InUser s c x →
      (saved c x tf s).curenv c = some x := fun hx => (saved_curenv _ c).trans hx.current
  have hlive : ∀ {x : EnvIdx} {tf : Trapframe}, InUser s c x →
      ((saved c x tf s).envs x).envStatus = .running := fun hx =>
    (hsav _).trans (hrun _ hx.mode hx.current)
  cases h with
  | collected hm hc hd _ =>
    rw [hrun _ hm hc] at hd
    cases hd
  | killed hx _ _ hu => exact .gone ha.ids.saved hsav hx.current (hno hx.mode hx.current) hu
  | died hx _ _ hu => exact .gone ha.ids.saved hsav hx.current (hno hx.mode hx.current) hu
  | yielded hx _ _ => exact hkept hx
  | timer hx _ => exact hkept hx
  | @received _ tf x hx _ _ =>
    have hcs : (saved c x tf s).curenv c = some x := hsc hx
    have hc : (receiving (saved c x tf s) x (Call.ofTf tf).a1).curenv c = some x := hcs
    refine hother hx (m := saved c x tf s) (fun y hy => setEnv_envs_of_ne hy) hsav hc ?_ ?_
    · exact ha.ids.saved.setEnv fun _ => hslot hx
    · simp only [receiving, KState.setEnv, Function.update_self]
      exact hslot hx
  | @stopped _ tf x m w hx _ hd hs =>
    obtain ⟨hcpus, y, v, henvs⟩ := hd.one
    have hcm : m.curenv c = some x := by
      rw [KState.curenv, hcpus]
      exact hsc hx
    have hst : ((answered m x w).envs x).envStatus = (m.envs x).envStatus := by
      simp [answered, KState.setEnv]
    have hyx : y = x := by
      by_contra hne
      refine hs (hst.trans ?_)
      rw [henvs, Function.update_of_ne (Ne.symm hne)]
      exact hlive hx
    subst hyx
    have him := hd.idsOk ha.ids.saved (by rw [hlive hx]; simp)
    have hidx := hd.slot (e := y) (hslot hx)
    have hca : (answered m y w).curenv c = some y := hcm
    refine hother hx (m := saved c y tf s) (fun z hz => ?_) hsav hca (him.setEnv fun _ => hidx) ?_
    · rw [answered, setEnv_envs_of_ne hz, henvs, Function.update_of_ne hz]
    · simp only [answered, KState.setEnv, Function.update_self]
      exact hidx
  | woken hh _ =>
    rcases ha.cpu with ⟨cur, hu, -⟩ | ⟨-, hn, -⟩
    · have := hu.mode
      rw [hh] at this
      cases this
    · have hn' : (started c s).curenv c = none := by
        simpa [started, KState.curenv, KState.setCpu] using hn
      refine ⟨ha.ids.congr rfl, fun e he => he, fun y hy => ?_, fun y hy _ => ?_⟩
      · rw [hn'] at hy
        cases hy
      · rw [hn] at hy
        cases hy
  | start hst =>
    rcases ha.cpu with ⟨cur, hu, -⟩ | ⟨hh, -⟩
    · have := hu.mode
      rw [hst] at this
      cases this
    · rw [hst] at hh
      cases hh

/-- In a step of an idle or running CPU, `sched_yield` decides, or the environment goes on. -/
theorem step_turn (hst : Step s (c, ev) t) (ha : Alone c s) :
    (∃ u, Decides s c ev u ∧ Yields c u t) ∨
    (∃ cur u, InUser s c cur ∧ IdsOk u ∧ (u.envs cur).envStatus = .running ∧ Runs c cur u t) ∨
      PmOnly s t := by
  have hrun : ∀ {x}, InUser s c x → (s.envs x).envStatus = .running := by
    intro x hx
    rcases ha.cpu with ⟨cur, hu, hr⟩ | ⟨hh, -⟩
    · obtain rfl := Option.some.inj (hx.current.symm.trans hu.current)
      exact hr
    · rw [hx.mode] at hh
      cases hh
  cases step_effect hst with
  | store _ ho => exact Or.inr (Or.inr ho)
  | start hm hy => exact Or.inl ⟨s, .start hm, hy⟩
  | @trap inp tf _ he =>
    cases he with
    | collected hm hc hd hu hy => exact Or.inl ⟨_, .collected hm hc hd hu, hy⟩
    | @faulted cur u hm hc hd _ _ hu hr =>
      have hx : InUser s c cur := ⟨hm, hc, hd⟩
      refine Or.inr (Or.inl ⟨cur, u, hx, IdsOk.congr (IdsOk.setEnv (ha.ids.congr rfl) fun _ => ?_)
        hu.envs, ?_, hr⟩)
      · exact ha.ids cur (by rw [hrun hx]; simp)
      · rw [hu.envs]
        simpa [faulted, started, KState.setEnv, KState.setCpu] using hrun hx
    | killed hm hc hd h1 h2 hu hy => exact Or.inl ⟨_, .killed ⟨hm, hc, hd⟩ h1 h2 hu, hy⟩
    | @called cur u w hm hc hd hs hdone hret =>
      have hx : InUser s c cur := ⟨hm, hc, hd⟩
      obtain ⟨hcpus, -⟩ := hdone.one
      have hcu : (answered u cur w).curenv c = some cur := by
        show u.curenv c = some cur
        rw [KState.curenv, hcpus]
        exact (saved_curenv tf c).trans hc
      have hret' : Returns c (answered u cur w) t := hret
      cases hret' with
      | @stay x _ hcx hrx hr =>
        obtain rfl := Option.some.inj (hcu.symm.trans hcx)
        have hlive : ((saved c cur tf s).envs cur).envStatus ≠ .free := by
          rw [(saved_ids s c cur tf cur).1, hrun hx]
          simp
        have hslot : envx ((saved c cur tf s).envs cur).envId = cur := ha.ids.saved cur hlive
        refine Or.inr (Or.inl ⟨cur, _, hx, ?_, hrx, hr⟩)
        exact (hdone.idsOk ha.ids.saved hlive).setEnv fun _ => hdone.slot hslot
      | yield hno hy => exact Or.inl ⟨_, .stopped hx hs hdone (hno cur hcu), hy⟩
    | @left cur hm hc hd hs hleft =>
      have hx : InUser s c cur := ⟨hm, hc, hd⟩
      cases hleft with
      | died hdes hu hy => exact Or.inl ⟨_, .died hx hs hdes hu, hy⟩
      | yielded h10 hy => exact Or.inl ⟨_, .yielded hx hs h10, hy⟩
      | received h12 hy => exact Or.inl ⟨_, .received hx hs h12, hy⟩
    | timer hm hc hd ht hy => exact Or.inl ⟨_, .timer ⟨hm, hc, hd⟩ ht, hy⟩
    | woken hm ht hy => exact Or.inl ⟨_, .woken hm ht, hy⟩

/-- An environment that `env_run` switches to runs. -/
theorem Runs.inUser (h : Runs c e s t) : InUser t c e ∧ (t.envs e).envStatus = .running := by
  obtain ⟨pd, -, rfl⟩ := h
  have hst : ((resume c e pd (preempt c s)).envs e).envStatus = .running := by
    rw [resume_envs, if_pos rfl]
  exact ⟨⟨by rw [resume_cpus, Function.update_self], by
    rw [KState.curenv, resume_cpus, Function.update_self], by rw [hst]; simp⟩, hst⟩

theorem Runs.alone (h : Runs c e s t) (he : Eligible (s.envs e)) (hi : IdsOk s) : Alone c t :=
  ⟨h.idsOk he hi, Or.inl ⟨e, h.inUser⟩⟩

/-- The search looks at every environment. -/
theorem schedPick_none {start : Nat} (hs : start ≤ 1024) (h : schedPick s start = none)
    (e : EnvIdx) : ¬ Runnable s e := by
  rw [schedPick, show nenv = 1024 from rfl] at h
  exact not_of_find_none (p := Runnable s) (fun _ => by simp [Runnable]) hs h e

/-- It finds the first one in circular order. -/
theorem schedPick_nearest {start : Nat} (hs : start ≤ 1024) (h : schedPick s start = some x) :
    Nearest (Runnable s) start x := by
  rw [schedPick, show nenv = 1024 from rfl] at h
  exact nearest_of_find (p := Runnable s) (fun _ => by simp [Runnable]) hs h

theorem schedBegin_le (s : KState) (c : CpuIdx) : schedBegin s c ≤ 1024 := by
  unfold schedBegin
  split
  · omega
  · exact Nat.succ_le_of_lt (Fin.isLt _)

theorem Alone.step (ha : Alone c s) (hst : Step s (c, ev) t) : Alone c t := by
  rcases step_turn hst ha with ⟨u, hd, hy⟩ | ⟨cur, u, -, hi, hr, hrun⟩ | ho
  · have hi := (hd.decided ha).ids
    cases hy with
    | pick hp hr => exact hr.alone (Or.inl (schedPick_runnable hp)) hi
    | stay _ _ hs hr => exact hr.alone (Or.inr hs) hi
    | halt hp _ _ =>
      refine ⟨hi.congr rfl, Or.inr ⟨?_, ?_, schedPick_none (schedBegin_le u c) hp⟩⟩
      · rw [halted_cpus, Function.update_self]
      · rw [KState.curenv, halted_cpus, Function.update_self]
  · exact hrun.alone (Or.inr hr) hi
  · refine ⟨ha.ids.congr ho.envs, ?_⟩
    rcases ha.cpu with ⟨cur, hu, hr⟩ | ⟨h1, h2, h3⟩
    · refine Or.inl ⟨cur, ⟨by rw [ho.cpus]; exact hu.mode, by rw [ho.curenv]; exact hu.current, ?_⟩, ?_⟩
      · rw [ho.envs]
        exact hu.live
      · rw [ho.envs]
        exact hr
    · refine Or.inr ⟨by rw [ho.cpus]; exact h1, by rw [ho.curenv]; exact h2, fun e => ?_⟩
      rw [Runnable, ho.envs]
      exact h3 e

/-- A decision of an idle or running CPU while `e` waits. -/
theorem Picks.nearest {y : EnvIdx} (h : Picks c u x t) (hd : Decides s c ev u) (ha : Alone c s)
    (hc : s.curenv c = some y) (ho : Orderly c s ev) (he : Runnable s e) :
    Nearest (Runnable u) (y.val + 1) x := by
  have hdec := hd.decided ha
  cases h with
  | stay hn _ _ _ => exact absurd (hdec.waiting e he) (schedPick_none (schedBegin_le u c) hn e)
  | next hp _ =>
    have hnear := schedPick_nearest (schedBegin_le u c) hp
    cases hcu : u.curenv c with
    | some cur =>
      obtain ⟨hcur, hslot⟩ := hdec.current cur hcu
      obtain rfl := Option.some.inj (hc.symm.trans hcur)
      have hb : schedBegin u c = y.val + 1 := by
        simp only [schedBegin, hcu, hslot]
      rwa [hb] at hnear
    | none =>
      have hb : schedBegin u c = 0 := by simp only [schedBegin, hcu]
      rw [hb] at hnear
      refine hnear.behind ?_
      rcases ho y u hc hd hcu with hs | hs
      · exact Or.inl fun z hz => hs z (hdec.reset y hc hcu z hz)
      · exact Or.inr fun z hz => hs z (hdec.reset y hc hcu z hz)

/-- While `e` waits, the selections form rounds that lead to it. -/
theorem turn_rounds {ls : List (Event × Option EnvIdx)} (hr : Run (restrict
    (fun s l => Runnable s e ∧ Orderly c s l.1) (Turn c)) s ls t) : ∀ {y : EnvIdx}, Alone c s →
      InUser s c y → Rounds e y (ls.filterMap Prod.snd) := by
  induction hr with
  | nil s => exact fun _ _ => .nil _
  | @cons s m t l ls hst hrest ih =>
    intro y ha hy
    obtain ⟨⟨he, ho⟩, hstep, hsel⟩ := hst
    obtain ⟨ev, sel⟩ := l
    have hm := ha.step hstep
    cases sel with
    | some x =>
      obtain ⟨u, hd, hp⟩ := (hsel x).mp rfl
      have hye : y ≠ e := by
        rintro rfl
        rcases ha.cpu with ⟨cur, hu, hr⟩ | ⟨-, -, hno⟩
        · obtain rfl := Option.some.inj (hy.current.symm.trans hu.current)
          rw [Runnable, hr] at he
          cases he
        · exact hno _ he
      have hx : InUser m c x := by
        cases hp with
        | next _ hr => exact hr.inUser.1
        | stay _ _ _ hr => exact hr.inUser.1
      exact .cons ((hd.decided ha).waiting e he) hye (hp.nearest hd ha hy.current ho he) (ih hm hx)
    | none =>
      refine ih hm ?_
      have hno : ∀ x, ¬ Selects s c ev x m := fun x hx => nomatch (hsel x).mpr hx
      rcases step_turn hstep ha with ⟨u, hd, hyl⟩ | ⟨cur, u, hu, -, -, hrun⟩ | hpm
      · cases hyl with
        | pick hp hr => exact absurd ⟨u, hd, .next hp hr⟩ (hno _)
        | stay hn hc hs hr => exact absurd ⟨u, hd, .stay hn hc hs hr⟩ (hno _)
        | halt hn _ _ =>
          exact absurd ((hd.decided ha).waiting e he) (schedPick_none (schedBegin_le u c) hn e)
      · obtain rfl := Option.some.inj (hy.current.symm.trans hu.current)
        exact hrun.inUser.1
      · exact ⟨by rw [hpm.cpus]; exact hy.mode, by rw [hpm.curenv]; exact hy.current, by
          rw [hpm.envs]
          exact hy.live⟩

/-- After boot the ids are in order and the first environment runs. -/
theorem Booted.alone {p : BootParams} (h : Booted p s) : Alone p.bsp s := by
  have hslot : ∀ {x : EnvIdx} {w : Word}, w = 4096 ||| BitVec.ofNat 32 x.val → envx w = x := by
    rintro x w rfl
    exact envx_or_slot 4 _ rfl
  obtain ⟨v, hv, h0⟩ := h.first
  refine ⟨fun x hx => ?_, Or.inl ⟨0, ⟨h.bsp.1, h.bsp.2, by rw [h0]; simp⟩, by rw [h0]⟩⟩
  by_cases hx0 : x = 0
  · subst hx0
    rw [h0]
    exact hslot hv.envId
  · have hex := h.envs x hx0
    split at hex
    · exact hslot hex.envId
    · rw [hex] at hx
      exact absurd rfl hx

end

/-- In every run on one CPU in which those that wait are always on one side of an environment that
    exits or is destroyed: as long as an environment waits, `sched_yield` selects no slot twice. -/
theorem round_robin {p : BootParams} {ls : List (CpuIdx × Event)} {s t : KState} {e : EnvIdx}
    {ls' : List (Event × Option EnvIdx)} (hboot : BootRun (fun _ l => l.1 = p.bsp) p ls s)
    (hr : Run (restrict (fun s l => Runnable s e ∧ Orderly p.bsp s l.1) (Turn p.bsp)) s ls' t) :
    (ls'.filterMap Prod.snd).Nodup := by
  obtain ⟨s0, hs0, hrun⟩ := hboot
  have ha : Alone p.bsp s := by
    refine hrun.invariant (I := Alone p.bsp) (fun s l t hs hst => ?_) (boot_booted hs0).alone
    obtain ⟨hl, hst⟩ := hst
    obtain ⟨k, ev⟩ := l
    subst hl
    exact hs.step hst
  rcases ha.cpu with ⟨cur, hu, -⟩ | ⟨-, -, hno⟩
  · exact (List.nodup_cons.mp (turn_rounds hr ha hu).nodup).2
  · cases hr with
    | nil => exact List.nodup_nil
    | cons hst _ => exact absurd hst.1.1 (hno e)

/-! ### Four programs on one CPU -/

def fourPrograms : BootParams :=
  { demo with
    bsp := 0
    ncpu := 1
    images := List.replicate 4 (demoImage 0x800020) }

/-- CPU 0 runs `y` while those in `W` wait. -/
structure Stage (s : KState) (y : EnvIdx) (W : List EnvIdx) : Prop where
  inv : Inv True s
  alone : Alone 0 s
  user : InUser s 0 y ∧ (s.envs y).envStatus = .running
  others : ∀ k, k ≠ 0 → (s.cpus k).mode ≠ .user
  waits : ∀ e, Runnable s e ↔ e ∈ W

section

variable {s t u : KState} {y z : EnvIdx} {W : List EnvIdx} {ev : Event}

theorem schedPick_first_of {start : Nat} (hs : start ≤ 1024) (hw : ∀ e, Runnable u e ↔ e ∈ W)
    (hz : z ∈ W) (hfirst : ∀ e ∈ W, e ≠ z → ahead start z < ahead start e) :
    schedPick u start = some z := by
  cases hp : schedPick u start with
  | none => exact absurd ((hw z).mpr hz) (schedPick_none hs hp z)
  | some x =>
    obtain ⟨hx, hle⟩ := schedPick_nearest hs hp
    by_cases hxz : x = z
    · rw [hxz]
    · exact absurd (hle z ((hw z).mpr hz)) (not_le.mpr (hfirst x ((hw x).mp hx) hxz))

/-- `sched_yield` selects `z` in the step. -/
theorem Stage.next (h : Stage s y W) (hsafe : StepSafe True s (0, ev)) (hd : Decides s 0 ev u)
    (hst : ∀ t, Yields 0 u t → Step s (0, ev) t) (hz : schedPick u (schedBegin u 0) = some z)
    (hlive : ∃ pd, (u.envs z).envPgdir = some pd) (hcpu : ∀ k, k ≠ 0 → u.cpus k = s.cpus k) :
    ∃ t, Turn 0 s (ev, some z) t ∧ Inv True t ∧ Alone 0 t ∧
      (∀ k, k ≠ 0 → (t.cpus k).mode ≠ .user) ∧ Runs 0 z u t := by
  obtain ⟨pd, hpd⟩ := hlive
  have hr : Runs 0 z u (resume 0 z pd (preempt 0 u)) := ⟨pd, hpd, rfl⟩
  have hstep := hst _ (.pick hz hr)
  refine ⟨_, ⟨hstep, fun x => ⟨?_, ?_⟩⟩, step_inv h.inv hsafe hstep, h.alone.step hstep,
    fun k hk => ?_, hr⟩
  · rintro hx
    obtain rfl := Option.some.inj hx
    exact ⟨u, hd, .next hz hr⟩
  · rintro ⟨v, -, hp⟩
    have hx : InUser (resume 0 z pd (preempt 0 u)) 0 x := by
      cases hp with
      | next _ hr' => exact hr'.inUser.1
      | stay _ _ _ hr' => exact hr'.inUser.1
    exact hr.inUser.1.current.symm.trans hx.current
  · rw [resume_cpus, Function.update_of_ne hk, preempt_cpus, hcpu k hk]
    exact h.others k hk

theorem Stage.safe (h : Stage s y W) {inp : Input} {tf : Trapframe} (hno : tf.tfTrapno ≠ tSyscall) :
    StepSafe True s (0, .trap inp tf) := by
  refine ⟨.inl trivial, fun cur _ _ => ⟨?_, fun _ hs => absurd hs hno⟩⟩
  rintro ⟨k, hk, hm, -⟩
  exact h.others k hk hm

theorem Stage.dir (h : Stage s y W) (he : Runnable s z ∨ z = y) :
    ∃ d, (s.envs z).envPgdir = some d := by
  obtain ⟨Le, hLe⟩ := h.inv.core.envs
  refine Option.ne_none_iff_exists'.mp (eligible_dir hLe ?_)
  rcases he with he | rfl
  · exact Or.inl he
  · exact Or.inr h.user.2

theorem Stage.mem_ne (h : Stage s y W) {e : EnvIdx} (he : e ∈ W) : e ≠ y := by
  rintro rfl
  have := (h.waits e).mpr he
  rw [Runnable, h.user.2] at this
  cases this

/-- The timer interrupts `y`. -/
theorem Stage.preempted (h : Stage s y W) (hz : z ∈ W)
    (hfirst : ∀ e ∈ W, e ≠ z → ahead (y.val + 1) z < ahead (y.val + 1) e) :
    ∃ t, Turn 0 s (.trap .plain (irqFrame irqTimer), some z) t ∧
      Stage t z (y :: W.filter (· ≠ z)) := by
  set u := saved 0 y (irqFrame irqTimer) s with hu
  have hd : Decides s 0 (.trap .plain (irqFrame irqTimer)) u := .timer h.user.1 rfl
  have hdec := hd.decided h.alone
  have hc : u.curenv 0 = some y := (saved_curenv _ 0).trans h.user.1.current
  have hst : ∀ e, (u.envs e).envStatus = (s.envs e).envStatus := fun e => (saved_ids s 0 y _ e).1
  have hw : ∀ e, Runnable u e ↔ e ∈ W := fun e => by
    rw [← h.waits e, Runnable, hst, Runnable]
  have hb : schedBegin u 0 = y.val + 1 := by
    simp only [schedBegin, hc, (hdec.current y hc).2]
  have hpick : schedPick u (schedBegin u 0) = some z := by
    rw [hb]
    exact schedPick_first_of (Nat.succ_le_of_lt y.isLt) hw hz hfirst
  have hzy := h.mem_ne hz
  have hlive : ∃ pd, (u.envs z).envPgdir = some pd := by
    rw [hu, saved_envs, if_neg hzy]
    exact h.dir (Or.inl ((h.waits z).mpr hz))
  have hstep : ∀ t, Yields 0 u t → Step s (0, .trap .plain (irqFrame irqTimer)) t := by
    intro t hy
    have hm := h.user.1.mode
    exact trap_timer y (Or.inl ⟨hm, rfl⟩) rfl (fun _ =>
      ⟨h.user.1.current, h.user.1.live, .of_lt (by decide)⟩) (by rwa [if_pos hm])
  obtain ⟨t, hturn, hi, ha, ho, hr⟩ := h.next (h.safe (by decide)) hd hstep hpick hlive
    fun k hk => by simp [hu, saved, KState.setEnv, KState.setCpu, hk]
  refine ⟨t, hturn, hi, ha, hr.inUser, ho, fun e => ?_⟩
  obtain ⟨pd, -, rfl⟩ := hr
  rw [Runnable, resume_envs]
  by_cases hez : e = z
  · subst hez
    simp [hzy]
  · rw [if_neg hez, preempt_envs]
    by_cases hey : e = y
    · subst hey
      simp [hc, hst, h.user.2]
    · rw [if_neg fun hx => hey (Option.some.inj (hc.symm.trans hx.1)).symm]
      have := hw e
      simp only [Runnable] at this
      simp [this, hey, hez]

/-- `y` divides by zero and is destroyed. -/
theorem Stage.destroyed (h : Stage s y W) (hz : z ∈ W)
    (hfirst : ∀ e ∈ W, e ≠ z → ahead 0 z < ahead 0 e) :
    ∃ t, Turn 0 s (.trap .plain (irqFrame 0), some z) t ∧
      Stage t z (W.filter (· ≠ z)) := by
  set m := saved 0 y (irqFrame 0) s with hm
  obtain ⟨L, hL⟩ := h.inv.core.page
  have hma : Alike s m := saved_alike _
  have hmL : PageInv m L ∅ :=
    pageInv_congr hL hma.mem hma.dir hma.pages hma.freeList hma.limits
  have hcm : m.curenv 0 = some y := (saved_curenv _ 0).trans h.user.1.current
  obtain ⟨d, hdir⟩ := h.dir (Or.inr rfl : Runnable s y ∨ y = y)
  obtain ⟨v, hfree, -⟩ := envFree_spec 0 hmL ((hma.dir y).trans hdir)
  have hv : SameEnvs (freed y m) v :=
    (envFree_effect (R := fun _ => True) (c := 0) (s := m)).ok hfree
  have hcv : v.curenv 0 = some y := (congrFun hv.curenv 0).trans hcm
  set u := v.setCurenv 0 none with hu
  have hd : Decides s 0 (.trap .plain (irqFrame 0)) u :=
    .killed h.user.1 (by decide) (by decide) hv
  have hcu : u.curenv 0 = none := by simp [hu, KState.setCurenv, KState.curenv, KState.setCpu]
  have hst : ∀ e, e ≠ y → (u.envs e).envStatus = (s.envs e).envStatus := by
    intro e he
    show (v.envs e).envStatus = _
    rw [hv.envs, ← (saved_ids s 0 y (irqFrame 0) e).1]
    simp [freed, KState.setEnv, he, hm]
  have hfy : (u.envs y).envStatus = .free := by
    show (v.envs y).envStatus = _
    rw [hv.envs]
    simp [freed, KState.setEnv]
  have hw : ∀ e, Runnable u e ↔ e ∈ W := by
    intro e
    by_cases he : e = y
    · subst he
      have hno : e ∉ W := fun hx => h.mem_ne hx rfl
      simp [Runnable, hfy, hno]
    · rw [← h.waits e, Runnable, hst e he, Runnable]
  have hb : schedBegin u 0 = 0 := by simp only [schedBegin, hcu]
  have hpick : schedPick u (schedBegin u 0) = some z := by
    rw [hb]
    exact schedPick_first_of (by omega) hw hz hfirst
  have hzy := h.mem_ne hz
  have hlive : ∃ pd, (u.envs z).envPgdir = some pd := by
    have hsame : (u.envs z).envPgdir = (s.envs z).envPgdir := by
      show (v.envs z).envPgdir = _
      rw [hv.envs, ← hma.dir z]
      simp [freed, KState.setEnv, hzy]
    rw [hsame]
    exact h.dir (Or.inl ((h.waits z).mpr hz))
  have hstep : ∀ t, Yields 0 u t → Step s (0, .trap .plain (irqFrame 0)) t := by
    intro t hy
    have hno : ¬ ((m.envs y).envStatus = .running ∧ m.curenv 0 ≠ some y) := fun hx => hx.2 hcm
    have hdes : envDestroy 0 y m = .error .leave t := by
      simp only [envDestroy, run_bind, run_get, run_ite, if_neg hno, hfree, if_pos hcv, run_set,
        ← hu, schedYield_run hy]
    have hdisp : trapDispatch 0 .plain (irqFrame 0) m = .error .leave t := by
      unfold trapDispatch
      rw [if_neg (by decide), if_neg (by decide), if_neg (by decide), if_neg (by decide),
        if_neg (by decide)]
      simp only [run_bind, getCurenv_run hcm, hdes]
    have htrap : trap 0 .plain (irqFrame 0) s = .error .leave t := by
      rw [trap_user rfl h.user.1.current (.of_lt (by decide)) h.user.1.live, run_bind, hdisp]
    have ha : TrapAllowed s 0 (irqFrame 0) := Or.inl ⟨h.user.1.mode, rfl⟩
    unfold Step step
    simp only
    rw [if_pos ha]
    exact enter_eq_some.mpr htrap
  obtain ⟨t, hturn, hi, ha, ho, hr⟩ := h.next (h.safe (by decide)) hd hstep hpick hlive
    fun k hk => by
      rw [hu, KState.setCurenv, KState.setCpu]
      simp [hk, hv.cpus, freed, KState.setEnv, hm, saved, KState.setCpu]
  refine ⟨t, hturn, hi, ha, hr.inUser, ho, fun e => ?_⟩
  obtain ⟨pd, -, rfl⟩ := hr
  rw [Runnable, resume_envs]
  by_cases hez : e = z
  · subst hez
    simp
  · rw [if_neg hez, preempt_envs, if_neg fun hx => by rw [hcu] at hx; cases hx.1]
    have := hw e
    simp only [Runnable] at this
    simp [this, hez]

end

/-- The four programs are loaded; the first one runs. -/
theorem fourPrograms_boot : ∃ s, boot fourPrograms = some s ∧ Stage s 0 [1, 2, 3] := by
  obtain ⟨s, L, hboot, hb, -, -⟩ := boot_fits (p := fourPrograms) (n := 0) ⟨by decide, rfl,
    ⟨by simp [fourPrograms], fun b hb => by
      rw [List.eq_of_mem_replicate hb]
      exact ⟨rfl, by decide, rfl⟩⟩, by simp [fourPrograms]⟩
  have ha := hb.alone
  obtain ⟨v, -, h0⟩ := hb.first
  have h0r : (s.envs 0).envStatus = .running := by rw [h0]
  refine ⟨s, hboot, hb.inv, ha,
    ⟨⟨hb.bsp.1, hb.bsp.2, by rw [h0r]; simp⟩, h0r⟩, fun k hk => (hb.others k hk).1, fun e => ?_⟩
  have hlen : fourPrograms.images.length = 4 := List.length_replicate
  by_cases he : e = 0
  · subst he
    simp [Runnable, h0r]
  · have hbe := hb.envs e he
    rw [hlen] at hbe
    split at hbe
    · rename_i hlt
      have hmem : e ∈ ([1, 2, 3] : List EnvIdx) := by
        have hne : e.val ≠ 0 := fun hx => he (Fin.ext hx)
        have hcase : e.val = 1 ∨ e.val = 2 ∨ e.val = 3 := by omega
        rcases hcase with hx | hx | hx
        · obtain rfl : e = 1 := Fin.ext hx
          decide
        · obtain rfl : e = 2 := Fin.ext hx
          decide
        · obtain rfl : e = 3 := Fin.ext hx
          decide
      simp [Runnable, hbe.status, hmem]
    · rename_i hge
      have hno : e ∉ ([1, 2, 3] : List EnvIdx) := by
        rintro hx
        simp only [List.mem_cons, List.not_mem_nil, or_false] at hx
        rcases hx with rfl | rfl | rfl <;> exact hge (by decide)
      rw [Runnable, hbe]
      simp [emptyEnv, hno]

/-- A timer interrupt while the last program waits. -/
theorem round_robin_preempted : ∃ s ls t, BootRun (fun _ l => l.1 = fourPrograms.bsp) fourPrograms [] s ∧
    Run (restrict (fun s l => Runnable s 3 ∧ Orderly 0 s l.1) (Turn 0)) s ls t ∧ ls ≠ [] ∧
    (ls.filterMap Prod.snd).Nodup := by
  obtain ⟨s, hboot, h⟩ := fourPrograms_boot
  obtain ⟨t, hturn, -⟩ := h.preempted (z := 1) (by simp) (by simp [ahead])
  have hord : Orderly 0 s (.trap .plain (irqFrame irqTimer)) := by
    rintro cur u hc hd hn
    have hy := h.user
    obtain rfl := Option.some.inj (hy.1.current.symm.trans hc)
    cases hd with
    | collected _ hc' hd' _ =>
      obtain rfl := Option.some.inj (hc.symm.trans hc')
      exact absurd hd' hy.1.live
    | killed _ _ hno _ => exact absurd rfl hno
    | died _ hs _ _ => exact absurd hs (by decide)
    | yielded _ hs _ => exact absurd hs (by decide)
    | received _ hs _ => exact absurd hs (by decide)
    | timer hx _ =>
      rw [saved_curenv, hx.current] at hn
      cases hn
    | stopped _ hs _ _ => exact absurd hs (by decide)
    | woken hm _ =>
      rw [hy.1.mode] at hm
      cases hm
  have hrun : BootRun (fun _ l => l.1 = fourPrograms.bsp) fourPrograms [] s := ⟨s, hboot, .nil s⟩
  have hr : Run (restrict (fun s l => Runnable s 3 ∧ Orderly 0 s l.1) (Turn 0)) s
      [(.trap .plain (irqFrame irqTimer), some 1)] t :=
    .single ⟨⟨(h.waits 3).mpr (by decide), hord⟩, hturn⟩
  exact ⟨s, _, t, hrun, hr, by simp, round_robin hrun hr⟩

/-- The second and the third program end after one time slice each, and each time the first one is
    selected, while the fourth one waits. -/
theorem round_robin_overtaken : ∃ s ls t,
    BootRun (fun _ l => l.1 = fourPrograms.bsp) fourPrograms [] s ∧
    Run (restrict (fun s _ => Runnable s 3) (Turn 0)) s ls t ∧
    ¬ (ls.filterMap Prod.snd).Nodup := by
  obtain ⟨s0, hboot, h0⟩ := fourPrograms_boot
  obtain ⟨s1, ht1, h1⟩ := h0.preempted (z := 1) (by simp) (by simp [ahead])
  obtain ⟨s2, ht2, h2⟩ := h1.destroyed (z := 0) (by simp) (by simp [ahead])
  obtain ⟨s3, ht3, h3⟩ := h2.preempted (z := 2) (by simp) (by simp [ahead])
  obtain ⟨s4, ht4, h4⟩ := h3.destroyed (z := 0) (by simp) (by simp [ahead])
  refine ⟨s0, _, s4, ⟨s0, hboot, .nil s0⟩,
    .cons ⟨(h0.waits 3).mpr (by decide), ht1⟩ (.cons ⟨(h1.waits 3).mpr (by decide), ht2⟩
      (.cons ⟨(h2.waits 3).mpr (by decide), ht3⟩ (.single ⟨(h3.waits 3).mpr (by decide), ht4⟩))), ?_⟩
  simp

end Jos
