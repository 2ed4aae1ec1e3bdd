import Jos.Isolation

/-!
  Destroying an environment that another CPU is running.

  `env_destroy` only marks it, and the CPU that runs it frees it when it enters the kernel next. This
  is sound as long as no other system call takes the mark away, or treats the environment as one
  that is not running. -/

namespace Jos

open Lib RefCount

/-- CPU `k` executes `e` in user mode. -/
def Executes (s : KState) (k : CpuIdx) (e : EnvIdx) : Prop :=
  (s.cpus k).mode = .user ∧ s.curenv k = some e

/-- CPU `k` enters the kernel. -/
def Enters (k : CpuIdx) (l : CpuIdx × Event) : Prop := l.1 = k ∧ ∃ inp tf, l.2 = .trap inp tf

/-- The step frees the environment in slot `e`. -/
def Frees (e : EnvIdx) (s : KState) (_ : CpuIdx × Event) (t : KState) : Prop :=
  (s.envs e).envStatus ≠ .free ∧ (t.envs e).envStatus = .free

/-- The step puts a new environment into slot `e`. -/
def Refills (e : EnvIdx) (s : KState) (_ : CpuIdx × Event) (t : KState) : Prop :=
  (s.envs e).envStatus = .free ∧ (t.envs e).envStatus ≠ .free

/-- In the step, `cur` makes the system call `call`. -/
def Calls (s : KState) (l : CpuIdx × Event) (cur : EnvIdx) (call : Call) : Prop :=
  ∃ inp tf, l.2 = .trap inp tf ∧ InUser s l.1 cur ∧ tf.tfTrapno = tSyscall ∧ call = Call.ofTf tf

/-- In the step, `sys_env_destroy` is called with the id of `e`. -/
def Kills (s : KState) (l : CpuIdx × Event) (e : EnvIdx) : Prop :=
  ∃ cur call, Calls s l cur call ∧ call.Destroys s cur e

/-- `sys_env_set_status` of an environment that is marked as dying. -/
def Unmarks (s : KState) (cur : EnvIdx) (call : Call) (e : EnvIdx) : Prop :=
  SetsStatus s cur call e ∧ statusOfWord call.a2 ≠ none ∧ (s.envs e).envStatus = .dying

/-- The step spares what other CPUs are running, and the marks on it. -/
def SparesMarks (s : KState) (l : CpuIdx × Event) : Prop :=
  SparesRunning s l ∧ ∀ cur call e, Calls s l cur call → ¬ Unmarks s cur call e

/-- How environment `e` of state `s`, which was destroyed in the first of the steps `ls`, ends up if
    `n` of them freed it: only the CPU that was running it may still do so, up to its next kernel
    entry. Then `e` has been freed, once. -/
structure Doomed (s : KState) (e : EnvIdx) (ls : List (CpuIdx × Event)) (n : Nat) (u : KState) :
    Prop where
  runs : ∀ k, Executes u k e → Executes s k e ∧ ∀ l ∈ ls, ¬ Enters k l
  once : (∃ k, Executes u k e) ∧ n = 0 ∨ (u.envs e).envStatus = .free ∧ n = 1

/-- Destruction of environments in state `s` and from there on, in steps that meet `ok`. A slot holds
    the same environment until it is refilled. -/
structure Destruction (ok : KState → CpuIdx × Event → Prop) (s : KState) : Prop where
  listed : ∃ Le, EnvList s Le ∧ ∀ k e, s.curenv k = some e → e ∉ Le
  frees : ∀ l e t, ok s l → Step s l t → Frees e s l t → ¬ Elsewhere s l.1 e
  final : ∀ l ls e n u, Kills s l e → Counted (restrict ok Step) (Refills e) s (l :: ls) 0 u →
    Counted (restrict ok Step) (Frees e) s (l :: ls) n u → Doomed s e (l :: ls) n u

/-- A page directory that is freed is not loaded on another CPU that executes user code. -/
def DirsUnloaded (ok : KState → CpuIdx × Event → Prop) (s : KState) : Prop :=
  ∀ l e t d k, ok s l → Step s l t → Frees e s l t → (s.envs e).envPgdir = some d → k ≠ l.1 →
    (s.cpus k).mode = .user → s.cr3 k ≠ d

/-- An environment that is marked as running is executed by some CPU. -/
def Marked (s : KState) : Prop :=
  ∀ e, (s.envs e).envStatus = .running → ∃ k, Executes s k e

/-- How a CPU leaves the kernel. -/
inductive Exits (c : CpuIdx) (m t : KState) : Prop
  | pick {x : EnvIdx} : (m.envs x).envStatus = .runnable → Runs c x m t → Exits c m t
  | stay {x : EnvIdx} : m.curenv c = some x → Runs c x m t → Exits c m t
  | halt : (∀ x, m.curenv c = some x → (m.envs x).envStatus ≠ .running) → t = halted c m →
      Exits c m t

/-- What a kernel entry of CPU `c` does to environments before it leaves, in state `m`. -/
inductive Within (s : KState) (c : CpuIdx) (m : KState) : Event → Prop
  | idle {ev : Event} : m.envs = s.envs → m.curenv c = s.curenv c → Within s c m ev
  -- the frame of what was running is saved, for the upcall with another one in its place
  | framed {inp : Input} {tf tf' : Trapframe} {cur : EnvIdx} : Executes s c cur →
      (∀ e, e ≠ cur → m.envs e = s.envs e) → m.envs cur = { s.envs cur with envTf := tf' } →
      m.curenv c = some cur → Within s c m (.trap inp tf)
  | died {inp : Input} {tf : Trapframe} {cur : EnvIdx} : Executes s c cur →
      (∀ e, e ≠ cur → m.envs e = s.envs e) → (m.envs cur).envStatus = .free →
      m.curenv c = none → Within s c m (.trap inp tf)
  | received {inp : Input} {tf : Trapframe} {cur : EnvIdx} : InUser s c cur →
      tf.tfTrapno = tSyscall → (Call.ofTf tf).no = 12 →
      m = receiving (saved c cur tf s) cur (Call.ofTf tf).a1 → Within s c m (.trap inp tf)
  | call {inp : Input} {tf : Trapframe} {cur : EnvIdx} {u : KState} {w : Word} : InUser s c cur →
      tf.tfTrapno = tSyscall → CallDone (saved c cur tf s) c cur (Call.ofTf tf) u →
      m = answered u cur w → Within s c m (.trap inp tf)

section

variable {c k : CpuIdx} {cur e : EnvIdx} {s t u m : KState} {tf : Trapframe} {inp : Input}
  {call : Call} {ev : Event} {l : CpuIdx × Event}

/-! ### Leaving the kernel -/

theorem Yields.exits (h : Yields c m t) : Exits c m t := by
  cases h with
  | pick hp hr => exact .pick (schedPick_runnable hp) hr
  | stay _ hc _ hr => exact .stay hc hr
  | halt _ hc _ => exact .halt hc rfl

theorem Returns.exits (h : Returns c m t) : Exits c m t := by
  cases h with
  | stay hc _ hr => exact .stay hc hr
  | yield _ hy => exact hy.exits

/-- The status of an environment that is not to be chosen stays. -/
theorem Exits.still (h : Exits c m t) (hc : m.curenv c ≠ some e)
    (he : (m.envs e).envStatus ≠ .runnable) : (t.envs e).envStatus = (m.envs e).envStatus := by
  have hrun : ∀ {x : EnvIdx}, e ≠ x → Runs c x m t → (t.envs e).envStatus = (m.envs e).envStatus := by
    rintro x hx ⟨pd, -, rfl⟩
    rw [resume_envs, if_neg hx, preempt_envs, if_neg fun hy => hc hy.1]
  cases h with
  | pick hx hr => exact hrun (fun hex => he (hex ▸ hx)) hr
  | stay hx hr => exact hrun (fun hex => hc (hex ▸ hx)) hr
  | halt _ ht =>
    subst ht
    rfl

/-- What is marked as running is what the CPU now executes, or it was marked before and is not what
    the CPU gave up. -/
theorem Exits.running (h : Exits c m t) (he : (t.envs e).envStatus = .running) :
    Executes t c e ∨ m.curenv c ≠ some e ∧ (m.envs e).envStatus = .running := by
  have hrun : ∀ {x : EnvIdx}, Runs c x m t →
      Executes t c e ∨ m.curenv c ≠ some e ∧ (m.envs e).envStatus = .running := by
    intro x hr
    rcases eq_or_ne e x with rfl | hx
    · exact Or.inl ⟨hr.inUser.1.mode, hr.inUser.1.current⟩
    obtain ⟨pd, -, rfl⟩ := hr
    rw [resume_envs, if_neg hx, preempt_envs] at he
    split at he
    · cases he
    · rename_i hno
      exact Or.inr ⟨fun hc => hno ⟨hc, he⟩, he⟩
  cases h with
  | pick _ hr => exact hrun hr
  | stay _ hr => exact hrun hr
  | halt hc ht =>
    subst ht
    exact Or.inr ⟨fun hx => hc e hx he, he⟩

/-! ### One kernel entry -/

/-- What was running is freed. -/
theorem Within.death {v : KState} (hk : Executes s c cur) (hv : ∀ x, x ≠ cur → v.envs x = s.envs x)
    (hu : SameEnvs (freed cur v) u) : Within s c (u.setCurenv c none) (.trap inp tf) := by
  have henv : (u.setCurenv c none).envs = (freed cur v).envs := hu.envs
  refine .died hk (fun e he => ?_) ?_ ?_
  · rw [henv, freed_envs he, hv e he]
  · rw [henv]
    simp [freed, KState.setEnv]
  · simp [KState.curenv, KState.setCurenv, KState.setCpu]

theorem TrapEffect.exits (h : TrapEffect s c tf t) :
    ∃ m, Within s c m (.trap inp tf) ∧ Exits c m t := by
  have hsc : (started c s).curenv c = s.curenv c := by
    simp [started, KState.curenv, KState.setCpu]
  have hsav : ∀ {cur x : EnvIdx}, x ≠ cur → (saved c cur tf s).envs x = s.envs x := fun hx => by
    rw [saved_envs, if_neg hx]
  have hkept : ∀ {cur : EnvIdx}, Executes s c cur →
      Within s c (saved c cur tf s) (.trap inp tf) := fun hk =>
    .framed hk (fun _ hx => hsav hx) (by rw [saved_envs, if_pos rfl]) ((saved_curenv tf c).trans hk.2)
  cases h with
  | collected hm hc _ hu hy =>
    exact ⟨_, .death (v := started c s) ⟨hm, hc⟩ (fun _ _ => rfl) hu, hy.exits⟩
  | @faulted cur u hm hc _ _ _ hu hr =>
    have hcu : u.curenv c = some cur := (congrFun hu.curenv c).trans (hsc.trans hc)
    have hself : u.envs cur = { s.envs cur with
        envTf := { tf with tfEip := (s.envs cur).envPgfaultUpcall, tfEsp := utfAddr tf.tfEsp } } := by
      rw [hu.envs]
      simp only [Jos.faulted, KState.setEnv, Function.update_self]
      rfl
    refine ⟨u, .framed ⟨hm, hc⟩ (fun x hx => ?_) hself hcu, .stay hcu hr⟩
    rw [hu.envs]
    exact setEnv_envs_of_ne hx
  | killed hm hc _ _ _ hu hy => exact ⟨_, .death ⟨hm, hc⟩ (fun _ hx => hsav hx) hu, hy.exits⟩
  | called hm hc hnd hno hd hr => exact ⟨_, .call ⟨hm, hc, hnd⟩ hno hd rfl, hr.exits⟩
  | left hm hc hnd hno hl =>
    cases hl with
    | died _ hu hy => exact ⟨_, .death ⟨hm, hc⟩ (fun _ hx => hsav hx) hu, hy.exits⟩
    | yielded _ hy => exact ⟨_, hkept ⟨hm, hc⟩, hy.exits⟩
    | received h12 hy => exact ⟨_, .received ⟨hm, hc, hnd⟩ hno h12 rfl, hy.exits⟩
  | timer hm hc _ _ hy => exact ⟨_, hkept ⟨hm, hc⟩, hy.exits⟩
  | woken _ _ hy => exact ⟨started c s, .idle rfl hsc, hy.exits⟩

/-- A step taken apart: a store of user code, or a kernel entry. -/
theorem step_exits (hst : Step s (c, ev) t) :
    (∃ va b via, ev = .store va b via ∧ PmOnly s t) ∨ ∃ m, Within s c m ev ∧ Exits c m t := by
  cases step_effect hst with
  | trap _ ht => exact Or.inr ht.exits
  | store _ ho => exact Or.inl ⟨_, _, _, rfl, ho⟩
  | start _ hy => exact Or.inr ⟨s, .idle rfl rfl, hy.exits⟩

/-- System calls mark nothing as running. -/
theorem CallDone.running (h : CallDone s c cur call u) (he : (u.envs e).envStatus = .running) :
    (s.envs e).envStatus = .running := by
  have hset : ∀ {x : EnvIdx} {v : Env}, u.envs = Function.update s.envs x v →
      (v.envStatus = .running → (s.envs x).envStatus = .running) →
      (s.envs e).envStatus = .running := by
    intro x v hu hv
    rw [hu] at he
    rcases eq_or_ne e x with rfl | hx
    · rw [Function.update_self] at he
      exact hv he
    · rwa [Function.update_of_ne hx] at he
  cases h with
  | nothing hu => rwa [hu.envs] at he
  | marked _ _ _ hu => exact hset hu.envs fun hx => by cases hx
  | freed _ _ _ hu => exact hset hu.envs fun hx => by cases hx
  | @forked x p _ _ hu =>
    rw [hu.envs] at he
    rcases eq_or_ne e x with rfl | hx
    · simp [Jos.forked, KState.setEnv] at he
    · simpa [Jos.forked, KState.setEnv, hx] using he
  | status _ _ hst hu =>
    refine hset hu.envs fun hx => ?_
    rcases statusOfWord_ne_free hst with rfl | rfl <;> cases hx
  | upcall _ _ hu => exact hset hu.envs fun hx => hx
  | sent _ _ _ hu => exact hset hu.envs fun hx => by cases hx

theorem answered_status (u : KState) (cur x : EnvIdx) (w : Word) :
    ((answered u cur w).envs x).envStatus = (u.envs x).envStatus := by
  rcases eq_or_ne x cur with rfl | hx
  · simp [answered, KState.setEnv]
  · simp [answered, KState.setEnv, hx]

theorem CallDone.answered_curenv {w : Word} (h : CallDone (saved c cur tf s) c cur call u) :
    (answered u cur w).curenv c = s.curenv c := by
  have hx : (answered u cur w).curenv c = (saved c cur tf s).curenv c := by
    rw [KState.curenv, KState.curenv, ← h.cpus]
    rfl
  rw [hx, saved_curenv]

theorem receiving_envs_of_ne {a : Word} (he : e ≠ cur) :
    (receiving (saved c cur tf s) cur a).envs e = s.envs e := by
  rw [receiving, setEnv_envs_of_ne he, saved_envs, if_neg he]

theorem receiving_curenv {a : Word} :
    (receiving (saved c cur tf s) cur a).curenv c = s.curenv c := by
  have h : (saved c cur tf s).curenv c = s.curenv c := saved_curenv tf c
  exact h

/-- Apart from system calls, an entry concerns only what was running. -/
theorem Within.other (h : Within s c m ev) (hc : s.curenv c ≠ some e) :
    (m.curenv c ≠ some e ∧ m.envs e = s.envs e) ∨ ∃ inp tf cur u w, ev = .trap inp tf ∧
      InUser s c cur ∧ tf.tfTrapno = tSyscall ∧
      CallDone (saved c cur tf s) c cur (Call.ofTf tf) u ∧ m = answered u cur w := by
  have hne : ∀ {x}, s.curenv c = some x → e ≠ x := fun hx hex => hc (hex ▸ hx)
  cases h with
  | idle henv hcur => exact Or.inl ⟨hcur ▸ hc, by rw [henv]⟩
  | framed hk hoth _ hcur =>
    exact Or.inl ⟨fun hx => hne hk.2 (Option.some.inj (hx.symm.trans hcur)), hoth e (hne hk.2)⟩
  | died hk hoth _ hcur => exact Or.inl ⟨by rw [hcur]; simp, hoth e (hne hk.2)⟩
  | received hu _ _ hm =>
    subst hm
    exact Or.inl ⟨fun hx => hc (receiving_curenv.symm.trans hx), receiving_envs_of_ne (hne hu.current)⟩
  | call hu hno hd hm => exact Or.inr ⟨_, _, _, _, _, rfl, hu, hno, hd, hm⟩

/-- What is marked as running when the CPU leaves was so when it entered, unless it is what the CPU
    gives up. -/
theorem Within.running (h : Within s c m ev) (he : (m.envs e).envStatus = .running)
    (hc : m.curenv c ≠ some e) : (s.envs e).envStatus = .running ∧ s.curenv c ≠ some e := by
  have hce : s.curenv c ≠ some e := by
    intro hx
    cases h with
    | idle _ hcur => exact hc (hcur.trans hx)
    | framed hk _ _ hcur => exact hc (hcur.trans (hk.2.symm.trans hx))
    | died hk _ hfree _ =>
      obtain rfl := Option.some.inj (hk.2.symm.trans hx)
      rw [he] at hfree
      cases hfree
    | received _ _ _ hm =>
      subst hm
      exact hc (receiving_curenv.trans hx)
    | call _ _ hd hm =>
      subst hm
      exact hc (hd.answered_curenv.trans hx)
  rcases h.other hce with ⟨-, henv⟩ | ⟨inp, tf, cur, u, w, -, -, -, hd, rfl⟩
  · exact ⟨henv ▸ he, hce⟩
  · rw [answered_status] at he
    exact ⟨(saved_ids s c cur tf e).1 ▸ hd.running he, hce⟩

theorem Marked.step (h : Marked s) (hst : Step s (c, ev) t) : Marked t := by
  intro e he
  rcases step_exits hst with ⟨va, b, via, rfl, ho⟩ | ⟨m, hw, hx⟩
  · rw [ho.envs] at he
    obtain ⟨k, hk⟩ := h e he
    exact ⟨k, by rw [ho.cpus]; exact hk.1, by rw [ho.curenv]; exact hk.2⟩
  rcases hx.running he with hex | ⟨hc, hm⟩
  · exact ⟨c, hex⟩
  obtain ⟨hs, hsc⟩ := hw.running hm hc
  obtain ⟨k, hk⟩ := h e hs
  have hkc : k ≠ c := by
    rintro rfl
    exact hsc hk.2
  have hcpu := step_cpus_of_ne hst hkc
  exact ⟨k, by rw [hcpu]; exact hk.1, by rw [KState.curenv, hcpu]; exact hk.2⟩

theorem Booted.marked {p : BootParams} (h : Booted p s) : Marked s := by
  intro e he
  rcases eq_or_ne e 0 with rfl | hne
  · exact ⟨p.bsp, h.bsp⟩
  have henv := h.envs e hne
  split at henv
  · rw [henv.status] at he
    cases he
  · rw [henv] at he
    cases he

/-! ### Marked as dying -/

/-- A dying environment on another CPU keeps its mark in a system call that spares it. -/
theorem CallDone.dying (h : CallDone s c cur call u) (hL : ∃ Le, EnvList s Le)
    (he : (s.envs e).envStatus = .dying) (hwake : ¬ Wakes s cur call e)
    (hfree : ¬ FreesAtOnce s cur call e) (hmark : ¬ Unmarks s cur call e) :
    (u.envs e).envStatus = .dying := by
  have hset : ∀ {x : EnvIdx} {v : Env}, u.envs = Function.update s.envs x v →
      (e = x → v.envStatus = .dying) → (u.envs e).envStatus = .dying := by
    intro x v hu hv
    rw [hu]
    rcases eq_or_ne e x with rfl | hx
    · rw [Function.update_self]
      exact hv rfl
    · rwa [Function.update_of_ne hx]
  cases h with
  | nothing hu => rwa [hu.envs]
  | marked _ _ _ hu => exact hset hu.envs fun _ => rfl
  | freed hd hr _ hu => exact hset hu.envs fun hx => absurd ⟨hx ▸ hd, hx ▸ hr⟩ hfree
  | @forked x p _ hf hu =>
    obtain ⟨Le, hLe⟩ := hL
    have hx : e ≠ x := by
      rintro rfl
      have hfr := (hLe.free e).mp (List.mem_of_head? (hLe.chain.head_eq.symm.trans hf))
      rw [he] at hfr
      cases hfr
    rw [hu.envs]
    simpa [Jos.forked, KState.setEnv, hx] using he
  | @status x st hno hl hst hu =>
    refine hset hu.envs fun hx => absurd ⟨⟨hno, hx ▸ hl⟩, ?_, he⟩ hmark
    rw [hst]
    simp
  | upcall _ _ hu => exact hset hu.envs fun hx => hx ▸ he
  | sent hno hl hr hu => exact hset hu.envs fun hx => absurd (Or.inr ⟨hno, hx ▸ hl, hx ▸ hr⟩) hwake

/-- It keeps its mark, and its CPU keeps executing it, until that CPU enters the kernel. -/
theorem step_dying (h : Exclusive Every s) (hok : SparesMarks s l) (hst : Step s l t)
    (he : (s.envs e).envStatus = .dying) (hk : Executes s k e) (hne : ¬ Enters k l) :
    (t.envs e).envStatus = .dying ∧ Executes t k e := by
  obtain ⟨c, ev⟩ := l
  have hstore : PmOnly s t → (t.envs e).envStatus = .dying ∧ Executes t k e := fun ho =>
    ⟨by rw [ho.envs]; exact he, by rw [ho.cpus]; exact hk.1, by rw [ho.curenv]; exact hk.2⟩
  by_cases hkc : k = c
  · subst hkc
    cases step_effect hst with
    | trap _ _ => exact absurd ⟨rfl, _, _, rfl⟩ hne
    | store _ ho => exact hstore ho
    | start hm _ => cases hk.1.symm.trans hm
  rcases step_exits hst with ⟨va, b, via, rfl, ho⟩ | ⟨m, hw, hx⟩
  · exact hstore ho
  have hels : Elsewhere s c e := ⟨k, hkc, hk.1, hk.2⟩
  have hce : s.curenv c ≠ some e := fun hc => (h.enter c).2 e hc hels
  have hcpu := step_cpus_of_ne hst hkc
  refine ⟨?_, by rw [hcpu]; exact hk.1, by rw [KState.curenv, hcpu]; exact hk.2⟩
  have hmid : (m.envs e).envStatus = .dying ∧ m.curenv c ≠ some e := by
    rcases hw.other hce with ⟨hmc, henv⟩ | ⟨inp, tf, cur, u, w, rfl, hu, hno, hd, rfl⟩
    · exact ⟨henv ▸ he, hmc⟩
    · rw [answered_status, hd.answered_curenv]
      have hids := saved_ids s c cur tf e
      obtain ⟨hsp, hun⟩ := hok
      obtain ⟨hwake, hfree⟩ := hsp inp tf cur e rfl hu hno hels
      refine ⟨hd.dying (h.enter c).1.saved.list (hids.1.trans he) (mt saved_wakes.mp hwake)
        (mt saved_freesAtOnce.mp hfree) fun hx => hun cur _ e ⟨inp, tf, rfl, hu, hno, rfl⟩ ?_, hce⟩
      obtain ⟨⟨h8, hl⟩, hst'⟩ := hx
      rw [saved_lookup] at hl
      exact ⟨⟨h8, hl⟩, hst'.1, he⟩
  rw [hx.still hmid.2 (by rw [hmid.1]; simp)]
  exact hmid.1

/-- When that CPU enters the kernel, the environment is freed. -/
theorem step_collects (hst : Step s l t) (he : (s.envs e).envStatus = .dying)
    (hk : Executes s k e) (hl : Enters k l) : (t.envs e).envStatus = .free := by
  obtain ⟨c, ev⟩ := l
  obtain ⟨rfl, inp, tf, rfl⟩ := hl
  cases step_effect hst with
  | trap _ ht =>
    have hcur : ∀ {x : EnvIdx}, s.curenv c = some x → (s.envs x).envStatus ≠ .dying → False := by
      intro x hx hnd
      obtain rfl := Option.some.inj (hk.2.symm.trans hx)
      exact hnd he
    cases ht with
    | @collected cur u _ hc _ hu hy =>
      obtain rfl := Option.some.inj (hk.2.symm.trans hc)
      exact free_after_death hu hy
    | faulted _ hc hnd _ _ _ _ => exact (hcur hc hnd).elim
    | killed _ hc hnd _ _ _ _ => exact (hcur hc hnd).elim
    | called _ hc hnd _ _ _ => exact (hcur hc hnd).elim
    | left _ hc hnd _ _ => exact (hcur hc hnd).elim
    | timer _ hc hnd _ _ => exact (hcur hc hnd).elim
    | woken hm _ _ => cases hk.1.symm.trans hm

/-! ### `sys_env_destroy` -/

/-- `sys_env_destroy` of an environment that is found. -/
theorem syscall_destroys (inp : Input) {w a1 : Word} (a2 a3 a4 a5 : Word) (hw : w.toNat = 3)
    (hc : m.curenv c = some cur) (hl : lookupEnv m cur a1 true = some e) :
    wp (syscall c inp w a1 a2 a3 a4 a5)
      (fun _ u => m.curenv c ≠ some e ∧ u.cpus = m.cpus ∧ ((m.envs e).envStatus = .running ∧
        (u.envs e).envStatus = .dying ∨ (u.envs e).envStatus = .free))
      (Leaves fun t => (t.envs e).envStatus = .free) m := by
  unfold syscall
  rw [hw]
  unfold sysEnvDestroy
  simp only
  rw [wp_bind]
  refine envid2env_bind hc (fun hx => ?_) fun x hx => ?_
  · cases hl.symm.trans hx
  obtain rfl := Option.some.inj (hl.symm.trans hx)
  rw [wp_bind]
  refine envDestroy_effect.mono (fun _ u hu => ?_) fun x t hR hx => ?_
  · simp only [wp_pure]
    obtain ⟨hne, ⟨hr, rfl⟩ | ⟨-, hu⟩⟩ := hu
    · exact ⟨hne, rfl, Or.inl ⟨hr, by simp [KState.setEnv]⟩⟩
    · refine ⟨hne, hu.cpus, Or.inr ?_⟩
      rw [hu.envs]
      simp [freed, KState.setEnv]
  · obtain ⟨-, u, hu, hy⟩ := hR hx
    exact free_after_death hu hy

/-- After `sys_env_destroy` the environment is gone, or it is marked and another CPU is running it. -/
theorem step_kills (hmk : Marked s) (hst : Step s l t) (hk : Kills s l e) :
    (t.envs e).envStatus = .free ∨
      (t.envs e).envStatus = .dying ∧ ∃ k, Executes s k e ∧ Executes t k e ∧ ¬ Enters k l := by
  obtain ⟨c, ev⟩ := l
  obtain ⟨cur, call, ⟨inp, tf, rfl, hu, hno, rfl⟩, h3, hl⟩ := hk
  have hc : (saved c cur tf s).curenv c = some cur := (saved_curenv tf c).trans hu.current
  have hsys := syscall_destroys inp tf.tfRegs.regEcx tf.tfRegs.regEbx tf.tfRegs.regEdi
    tf.tfRegs.regEsi h3 hc ((saved_lookup _ _ _).trans hl)
  rcases step_syscall hu hno hst with ⟨w, u, hrun, hret⟩ | hrun
  · obtain ⟨hne, hcpus, hu'⟩ := hsys.ok hrun
    have hce : s.curenv c ≠ some e := fun hx => hne ((saved_curenv tf c).trans hx)
    have hca : (answered u cur w).curenv c ≠ some e := by
      have hx : (answered u cur w).curenv c = (saved c cur tf s).curenv c := by
        rw [KState.curenv, KState.curenv, ← hcpus]
        rfl
      rwa [hx]
    have hstill : (u.envs e).envStatus ≠ .runnable →
        (t.envs e).envStatus = (u.envs e).envStatus := fun hx => by
      rw [(trapReturn_returns hret).exits.still hca (by rwa [answered_status]), answered_status]
    rcases hu' with ⟨hr, hdy⟩ | hfr
    · rw [(saved_ids s c cur tf e).1] at hr
      obtain ⟨k, hk⟩ := hmk e hr
      have hkc : k ≠ c := by
        rintro rfl
        exact hce hk.2
      have hcpu := step_cpus_of_ne hst hkc
      exact Or.inr ⟨(hstill (by rw [hdy]; simp)).trans hdy, k, hk,
        ⟨by rw [hcpu]; exact hk.1, by rw [KState.curenv, hcpu]; exact hk.2⟩, fun hx => hkc hx.1.symm⟩
    · exact Or.inl ((hstill (by rw [hfr]; simp)).trans hfr)
  · exact Or.inl (hsys.error hrun rfl)

/-! ### Runs -/

theorem restrict_step_unique {ok : KState → CpuIdx × Event → Prop} {t' : KState}
    (h : restrict ok Step s l t) (h' : restrict ok Step s l t') : t = t' :=
  Option.some.inj (h.2.symm.trans h'.2)

/-- What is kept in every run that spares marks. -/
def Zombies (s : KState) : Prop := Exclusive Every s ∧ Marked s

theorem Zombies.step (h : Zombies s) (hst : restrict SparesMarks Step s l t) : Zombies t :=
  ⟨h.1.step hst.1.1 hst.2, h.2.step hst.2⟩

theorem Zombies.not_executes (h : Zombies s) (he : (s.envs e).envStatus = .free) :
    ¬ Executes s k e := fun hk => (h.1.status k e trivial hk.1 hk.2).1 he

/-- A free slot stays free until it is refilled. -/
theorem free_run : ∀ {ls : List (CpuIdx × Event)} {s : KState} {n : Nat},
    (s.envs e).envStatus = .free → Counted (restrict SparesMarks Step) (Refills e) s ls 0 u →
    Counted (restrict SparesMarks Step) (Frees e) s ls n u → (u.envs e).envStatus = .free ∧ n = 0
  | [], _, _, he, hc, hf => by
    cases hc
    cases hf
    exact ⟨he, rfl⟩
  | l :: ls, s, n, he, hc, hf => by
    obtain ⟨t, m, hst, hc', hm⟩ := hc.cons_inv
    obtain ⟨t', m', hst', hf', rfl⟩ := hf.cons_inv
    obtain rfl := restrict_step_unique hst hst'
    have hno : ¬ Refills e s l t := fun hx => by
      rw [if_pos hx] at hm
      omega
    have ht : (t.envs e).envStatus = .free := by
      by_contra hx
      exact hno ⟨he, hx⟩
    have hm0 : m = 0 := by omega
    subst hm0
    obtain ⟨hu, rfl⟩ := free_run ht hc' hf'
    exact ⟨hu, by rw [if_neg fun hx => hx.1 he]⟩

open Classical in
/-- The run from the step that frees `e`. -/
theorem Zombies.freed {ls : List (CpuIdx × Event)} {n : Nat} (h : Zombies s)
    (hst : restrict SparesMarks Step s l t) (hf : Frees e s l t)
    (hc' : Counted (restrict SparesMarks Step) (Refills e) t ls 0 u)
    (hf' : Counted (restrict SparesMarks Step) (Frees e) t ls n u) :
    Doomed s e (l :: ls) (n + if Frees e s l t then 1 else 0) u := by
  obtain ⟨hu, rfl⟩ := free_run hf.2 hc' hf'
  have hzu : Zombies u := hc'.run.invariant (fun _ _ _ hI hx => hI.step hx) (h.step hst)
  exact ⟨fun k hk => absurd hk (hzu.not_executes hu), Or.inr ⟨hu, by rw [if_pos hf]⟩⟩

open Classical in
/-- The run from a step that leaves it dying. -/
theorem Doomed.cons {ls : List (CpuIdx × Event)} {n : Nat} (h : Doomed t e ls n u)
    (hzt : Zombies t) (hdy : (t.envs e).envStatus = .dying) (hks : Executes s k e)
    (hkt : Executes t k e) (hl : ¬ Enters k l) :
    Doomed s e (l :: ls) (n + if Frees e s l t then 1 else 0) u := by
  rw [if_neg fun hx => by rw [Frees, hdy] at hx; cases hx.2]
  refine ⟨fun k' hk' => ?_, h.once⟩
  obtain ⟨hk't, hno⟩ := h.runs k' hk'
  obtain rfl : k' = k := hzt.1.sole k' k e trivial trivial hk't.1 hkt.1 hk't.2 hkt.2
  refine ⟨hks, fun l' hl' => ?_⟩
  rcases List.mem_cons.mp hl' with rfl | hl'
  · exact hl
  · exact hno l' hl'

/-- A dying environment, up to the kernel entry that frees it and on from there. -/
theorem dying_run : ∀ {ls : List (CpuIdx × Event)} {s : KState} {n : Nat}, Zombies s →
    (s.envs e).envStatus = .dying → Executes s k e →
    Counted (restrict SparesMarks Step) (Refills e) s ls 0 u →
    Counted (restrict SparesMarks Step) (Frees e) s ls n u → Doomed s e ls n u
  | [], s, _, h, _, hk, hc, hf => by
    cases hc
    cases hf
    exact ⟨fun k' hk' => ⟨hk', by simp⟩, Or.inl ⟨⟨k, hk⟩, rfl⟩⟩
  | l :: ls, s, n, h, he, hk, hc, hf => by
    obtain ⟨t, m, hst, hc', hm⟩ := hc.cons_inv
    obtain ⟨t', m', hst', hf', rfl⟩ := hf.cons_inv
    obtain rfl := restrict_step_unique hst hst'
    obtain rfl : m = 0 := by omega
    by_cases hl : Enters k l
    · exact h.freed hst ⟨by rw [he]; simp, step_collects hst.2 he hk hl⟩ hc' hf'
    · obtain ⟨hdy, hkt⟩ := step_dying h.1 hst.1 hst.2 he hk hl
      exact (dying_run (h.step hst) hdy hkt hc' hf').cons (h.step hst) hdy hk hkt hl

/-- From the call of `sys_env_destroy` on. -/
theorem Zombies.final {ls : List (CpuIdx × Event)} {n : Nat} (h : Zombies s) (hk : Kills s l e)
    (hc : Counted (restrict SparesMarks Step) (Refills e) s (l :: ls) 0 u)
    (hf : Counted (restrict SparesMarks Step) (Frees e) s (l :: ls) n u) :
    Doomed s e (l :: ls) n u := by
  obtain ⟨t, m, hst, hc', hm⟩ := hc.cons_inv
  obtain ⟨t', m', hst', hf', rfl⟩ := hf.cons_inv
  obtain rfl := restrict_step_unique hst hst'
  obtain rfl : m = 0 := by omega
  rcases step_kills h.2 hst.2 hk with hfree | ⟨hdy, k, hks, hkt, hl⟩
  · obtain ⟨cur, call, ⟨inp, tf, -, hcur, -, -⟩, -, hlook⟩ := hk
    have hlive := lookupEnv_live (h.1.status l.1 cur trivial hcur.mode hcur.current).1 hlook
    exact h.freed hst ⟨hlive, hfree⟩ hc' hf'
  · exact (dying_run (h.step hst) hdy hkt hc' hf').cons (h.step hst) hdy hks hkt hl

theorem Exclusive.frees (h : Exclusive Every s) (hsp : SparesRunning s l) (hst : Step s l t)
    (hf : Frees e s l t) : ¬ Elsewhere s l.1 e := by
  obtain ⟨c, ev⟩ := l
  rintro ⟨k, hk, hm, hkc⟩
  have hcpu := step_cpus_of_ne hst hk
  exact ((h.step hsp hst).status k e trivial (by rw [hcpu]; exact hm)
    (by rw [KState.curenv, hcpu]; exact hkc)).1 hf.2

theorem Zombies.destruction (h : Zombies s) : Destruction SparesMarks s := by
  obtain ⟨Le, hLe⟩ := h.1.list
  refine ⟨⟨Le, hLe, fun k e hk hmem => ?_⟩, fun l e t hok hst hf => h.1.frees hok.1 hst hf,
    fun l ls e n u hk hc hf => h.final hk hc hf⟩
  by_cases hm : (s.cpus k).mode = .user
  · exact h.not_executes ((hLe.free e).mp hmem) ⟨hm, hk⟩
  · rw [h.1.idle k trivial hm] at hk
    cases hk

theorem Plainly.sparesMarks (h : Plainly s l) : SparesMarks s l := by
  refine ⟨h.1.1, ?_⟩
  rintro cur call e ⟨inp, tf, hl, hu, hno, rfl⟩ hx
  exact (h.2 inp tf cur e hl hu hno hx.1).1 hx.2.2

theorem Inv.dirsUnloaded {T : Prop} (h : Inv T s) (hx : Exclusive Every s) :
    DirsUnloaded SparesMarks s := by
  rintro l e t d k hok hst hf hd hk hm rfl
  obtain ⟨L, hL⟩ := h.core.page
  exact hx.frees hok.1 hst hf ⟨k, hk, hm, (h.cpus k).dir_unique hL.separate hm hd⟩

end

section

variable {s : KState} {st : EnvStatus}

/-- The parent's call of `sys_env_destroy` on its child. -/
theorem Pair.destroys (h : Pair s st) (hst : st ≠ .free) (inp : Input) {u : KState}
    (hdes : envDestroy 0 1 (saved 0 0 (callFrame 3 4097 0 0) s) = .ok () u) :
    syscall 0 inp 3 4097 0 0 0 0 (saved 0 0 (callFrame 3 4097 0 0) s) = .ok 0 u := by
  have hc : (saved 0 0 (callFrame 3 4097 0 0) s).curenv 0 = some 0 :=
    (saved_curenv _ 0).trans h.user.current
  have hl : lookupEnv (saved 0 0 (callFrame 3 4097 0 0) s) 0 4097 true = some 1 :=
    (saved_lookup _ _ _).trans (h.look hst)
  have hrun : sysEnvDestroy 0 4097 (saved 0 0 (callFrame 3 4097 0 0) s) = .ok (.ok 0) u := by
    simp only [sysEnvDestroy, run_bind, envid2env_run hc, hl, hdes, run_pure]
  simp only [syscall]
  rw [show (3 : Word).toNat = 3 from rfl]
  simp only [run_bind, hrun]
  rfl

/-- The call concerns the child. -/
theorem Pair.destroys_child (h : Pair s st) (hst : st ≠ .free) {x : EnvIdx}
    (hx : (Call.ofTf (callFrame 3 4097 0 0)).Destroys s 0 x) : x = 1 :=
  Option.some.inj (hx.2.symm.trans (h.look hst))

/-- The call is safe while the child is running on another CPU. -/
theorem Pair.destroy_safe (h : Pair s .running) :
    (Call.ofTf (callFrame 3 4097 0 0)).Safe (saved 0 0 (callFrame 3 4097 0 0) s) 0 True 0 := by
  have hno : (Call.ofTf (callFrame 3 4097 0 0)).no = 3 := rfl
  have hc : (saved 0 0 (callFrame 3 4097 0 0) s).curenv 0 = some 0 :=
    (saved_curenv _ 0).trans h.user.current
  have hins : ∀ {x va f}, ¬ (Call.ofTf (callFrame 3 4097 0 0)).Inserts
      (saved 0 0 (callFrame 3 4097 0 0) s) 0 x va f := by
    rintro x va f (⟨h5, -⟩ | ⟨⟨h11, -⟩, -⟩)
    · exact absurd (hno.symm.trans h5) (by decide)
    · exact absurd (hno.symm.trans h11) (by decide)
  refine ⟨fun e he => ?_, fun e he => absurd (hno.symm.trans he.1) (by decide),
    fun e va f hi => absurd hi hins, fun _ e hd => ?_⟩
  · obtain rfl := h.destroys_child (by simp) ⟨he.1, (saved_lookup _ _ _).symm.trans he.2⟩
    exact Or.inl ⟨by rw [saved_envs, if_neg (by decide), h.status], by rw [hc]; decide⟩
  · cases hd with
    | alloc h4 => exact absurd (hno.symm.trans h4) (by decide)
    | unmap h6 => exact absurd (hno.symm.trans h6) (by decide)
    | insert hi => exact absurd hi hins

/-- It neither wakes anyone nor frees what another CPU is running. -/
theorem Pair.destroy_careful (h : Pair s .running) (inp : Input) :
    Careful True s (0, .trap inp (callFrame 3 4097 0 0)) := by
  refine ⟨?_, .inl trivial, ?_⟩
  · rintro _ _ cur e ⟨⟩ hu - -
    obtain rfl := Option.some.inj (h.user.current.symm.trans hu.current)
    refine ⟨?_, fun hf => ?_⟩
    · rintro (⟨h8, -⟩ | ⟨h11, -⟩)
      · exact absurd (show 3 = 8 from h8) (by decide)
      · exact absurd (show 3 = 11 from h11) (by decide)
    · obtain rfl := h.destroys_child (by simp) hf.1
      exact hf.2 h.status
  · rintro _ _ cur ⟨⟩ hu -
    obtain rfl := Option.some.inj (h.user.current.symm.trans hu.current)
    exact h.destroy_safe

/-- While another CPU is running it, the child is marked. -/
theorem Pair.marks (h : Pair s .running) (inp : Input) :
    ∃ t, Step s (0, .trap inp (callFrame 3 4097 0 0)) t ∧ Pair t .dying := by
  set m := saved 0 0 (callFrame 3 4097 0 0) s with hm
  have hc : m.curenv 0 = some 0 := (saved_curenv _ 0).trans h.user.current
  have hm1 : m.envs 1 = s.envs 1 := by rw [hm, saved_envs, if_neg (by decide)]
  have hr : (m.envs 1).envStatus = .running ∧ m.curenv 0 ≠ some 1 :=
    ⟨by rw [hm1, h.status], by rw [hc]; decide⟩
  have hdes : envDestroy 0 1 m = .ok () (m.setEnv 1 { m.envs 1 with envStatus := .dying }) := by
    simp only [envDestroy, run_bind, run_get, run_ite, if_pos hr, run_set]
  obtain ⟨t, hstep, hp, henvs, -, -⟩ := h.called inp (callFrame 3 4097 0 0) rfl
    (callFrame_ebp _ _ _ _) rfl (h.destroys (by simp) inp hdes) h.destroy_safe rfl
    (setEnv_envs_of_ne (by decide)) fun e he => by
      have he1 : e ≠ 1 := by
        rintro rfl
        exact absurd he (by decide)
      have he0 : e ≠ 0 := by
        rintro rfl
        exact absurd he (by decide)
      simp [KState.setEnv, he1, hm, saved_envs, he0, h.rest e he]
  have h1 : t.envs 1 = { s.envs 1 with envStatus := .dying } := by
    rw [henvs 1 (by decide)]
    simp [KState.setEnv, hm1]
  exact ⟨t, hstep, hp, by rw [h1], by rw [h1]; exact h.childId, by rw [h1]; exact h.parentId⟩

/-- Once it is marked, the same call frees it. -/
theorem Pair.frees (h : Pair s .dying) (inp : Input) :
    ∃ t, Step s (0, .trap inp (callFrame 3 4097 0 0)) t ∧ (t.envs 1).envStatus = .free := by
  set m := saved 0 0 (callFrame 3 4097 0 0) s with hm
  have hma : Alike s m := saved_alike _
  have hc : m.curenv 0 = some 0 := (saved_curenv _ 0).trans h.user.current
  have hm1 : m.envs 1 = s.envs 1 := by rw [hm, saved_envs, if_neg (by decide)]
  obtain ⟨L, hL⟩ := h.inv.core.page
  obtain ⟨Le, hLe⟩ := h.inv.core.envs
  obtain ⟨d, hd⟩ : ∃ d, (m.envs 1).envPgdir = some d := by
    rw [hm1]
    refine Option.ne_none_iff_exists'.mp fun hn => ?_
    have hfr := (hLe.dir 1).mp hn
    rw [h.status] at hfr
    cases hfr
  obtain ⟨u, hfree, hgone, -⟩ := envFree_spec 0
    (pageInv_congr hL hma.mem hma.dir hma.pages hma.freeList hma.limits) hd
  have hcu : u.curenv 0 ≠ some 1 := by
    rw [KState.curenv, hgone.cpus]
    exact fun hx => absurd (hc.symm.trans hx) (by decide)
  have hr : ¬ ((m.envs 1).envStatus = .running ∧ m.curenv 0 ≠ some 1) := by
    rw [hm1, h.status]
    simp
  have hdes : envDestroy 0 1 m = .ok () u := by
    simp only [envDestroy, run_bind, run_get, run_ite, if_neg hr, hfree, if_neg hcu, run_pure]
  obtain ⟨t, hstep, -, -, henvs, -⟩ := h.returns inp (callFrame 3 4097 0 0) rfl
    (callFrame_ebp _ _ _ _) rfl (h.destroys (by simp) inp hdes) hgone.cpus
    (by rw [hgone.envs, Function.update_of_ne (by decide)])
  refine ⟨t, hstep, ?_⟩
  rw [henvs 1 (by decide), hgone.envs, Function.update_self]

end

/-! ### From boot on -/

/-- As long as no system call acts on an environment that another CPU is running as if it was not,
    and none takes a mark away: in every state reached, `env_free` is applied to nothing that another
    CPU is running, no slot on `env_free_list` is current, and what `sys_env_destroy` is called on is
    executed until the next kernel entry of its CPU at most, and is freed exactly once. In careful
    runs no page directory is freed that is loaded on another CPU. -/
theorem destroyed_once {p : BootParams} {ls : List (CpuIdx × Event)} {s : KState}
    (h : BootRun SparesMarks p ls s) : Destruction SparesMarks s ∧
      (BootRun (Careful True) p ls s → DirsUnloaded SparesMarks s) := by
  obtain ⟨s0, hboot, hr⟩ := h
  have hb := boot_booted hboot
  have hz : Zombies s := hr.invariant (fun _ _ _ hI hst => hI.step hst) ⟨hb.exclusive, hb.marked⟩
  exact ⟨hz.destruction, fun hc => (careful_run hc).2.dirsUnloaded hz.1⟩

/-- The parent calls `sys_env_destroy` once, while CPU 1 is running the child: the child is marked,
    and CPU 1 goes on until it traps. -/
theorem destroyed_once_demo : ∃ ls s, BootRun SparesMarks oneProgram ls s ∧
    BootRun (Careful True) oneProgram ls s ∧ (s.envs 1).envStatus = .dying ∧ Executes s 1 1 ∧
    Destruction SparesMarks s ∧ DirsUnloaded SparesMarks s := by
  obtain ⟨ls, s, ⟨s0, hboot, hrun⟩, h, hu, -⟩ := child_runs
  obtain ⟨t, hst, ht⟩ := h.marks .plain
  have hcpu : t.cpus 1 = s.cpus 1 := step_cpus_of_ne hst (by decide)
  have hcare := h.destroy_careful .plain
  have hspares : SparesMarks s (0, .trap .plain (callFrame 3 4097 0 0)) := by
    refine ⟨hcare.1, ?_⟩
    rintro cur call e ⟨inp, tf, ⟨⟩, -, -, rfl⟩ hx
    exact absurd (show 3 = 8 from hx.1.1) (by decide)
  have hr : BootRun SparesMarks oneProgram _ t := ⟨s0, hboot,
    (hrun.mono fun _ _ _ hx => ⟨hx.1.sparesMarks, hx.2⟩).append (.single ⟨hspares, hst⟩)⟩
  have hc : BootRun (Careful True) oneProgram _ t := ⟨s0, hboot,
    (hrun.mono fun _ _ _ hx => ⟨hx.1.1, hx.2⟩).append (.single ⟨hcare, hst⟩)⟩
  obtain ⟨hdes, hdirs⟩ := destroyed_once hr
  exact ⟨_, t, hr, hc, ht.status, ⟨by rw [hcpu]; exact hu.mode,
    by rw [KState.curenv, hcpu]; exact hu.current⟩, hdes, hdirs hc⟩

/-- The parent calls `sys_env_destroy` twice on a child that CPU 1 is running: the second call frees
    it, with its page directory, while CPU 1 still executes it. -/
theorem child_freed_running : ∃ ls s t, BootRun (fun _ _ => True) oneProgram ls s ∧
    Step s (0, .trap .plain (callFrame 3 4097 0 0)) t ∧
    Frees 1 s (0, .trap .plain (callFrame 3 4097 0 0)) t ∧ Executes t 1 1 ∧
    ¬ Destruction (fun _ _ => True) s := by
  obtain ⟨ls, s, hplain, h, hu, -⟩ := child_runs
  obtain ⟨s0, hboot, hrun⟩ := hplain.mono (fun _ _ => True) fun _ _ _ => trivial
  obtain ⟨t, hst, ht⟩ := h.marks .plain
  obtain ⟨v, hsv, hv⟩ := ht.frees .plain
  have hcput : t.cpus 1 = s.cpus 1 := step_cpus_of_ne hst (by decide)
  have hcpuv : v.cpus 1 = t.cpus 1 := step_cpus_of_ne hsv (by decide)
  have hkt : Executes t 1 1 :=
    ⟨by rw [hcput]; exact hu.mode, by rw [KState.curenv, hcput]; exact hu.current⟩
  have hfrees : Frees 1 t (0, .trap .plain (callFrame 3 4097 0 0)) v :=
    ⟨by rw [ht.status]; simp, hv⟩
  refine ⟨_, t, v, ⟨s0, hboot, hrun.append (.single ⟨trivial, hst⟩)⟩, hsv, hfrees,
    ⟨by rw [hcpuv]; exact hkt.1, by rw [KState.curenv, hcpuv]; exact hkt.2⟩, fun hdes => ?_⟩
  exact hdes.frees _ 1 v trivial hsv hfrees ⟨1, by decide, hkt.1, hkt.2⟩

end Jos
