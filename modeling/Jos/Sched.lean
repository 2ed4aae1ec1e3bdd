import Jos.Trap
import Jos.Alloc

/-!
  How a CPU leaves the kernel (`env_run`, `sched_halt`, `sched_yield` and the end of `trap`).

  `Leaves R` is the exit condition of kernel code: if the CPU leaves the kernel, it does so in a
  state that meets `R`. A panic and the monitor leave nothing behind. -/

namespace Jos

open Lib

/-- Exit condition of kernel code. -/
def Leaves (R : KState → Prop) (x : Stop) (t : KState) : Prop := x = .leave → R t

@[simp] theorem leaves_leave {R : KState → Prop} {t : KState} : Leaves R .leave t ↔ R t := by
  simp [Leaves]

@[simp] theorem leaves_panic {R : KState → Prop} {t : KState} : Leaves R .panic t := by
  simp [Leaves]

@[simp] theorem leaves_monitor {R : KState → Prop} {t : KState} : Leaves R .monitor t := by
  simp [Leaves]

theorem Leaves.mono {R R' : KState → Prop} (h : ∀ t, R t → R' t) {x : Stop} {t : KState}
    (hx : Leaves R x t) : Leaves R' x t := fun e => h t (hx e)

/-- `env_run`, first half: the current environment goes back to the runnable ones. -/
def preempt (c : CpuIdx) (s : KState) : KState :=
  match s.curenv c with
  | none => s
  | some cur =>
    if (s.envs cur).envStatus = .running then
      s.setEnv cur { s.envs cur with envStatus := .runnable }
    else s

/-- `env_run`, second half: `e` becomes current, on its page directory. -/
def resume (c : CpuIdx) (e : EnvIdx) (pd : Nat) (s : KState) : KState :=
  let s := s.setCurenv c (some e)
  let s := s.setEnv e { s.envs e with envStatus := .running, envRuns := (s.envs e).envRuns + 1 }
  let s := s.lcr3 c pd
  let s := s.setEnv e { s.envs e with envCpunum := c }
  s.setCpu c { s.cpus c with mode := .user }

/-- `sched_halt`. -/
def halted (c : CpuIdx) (s : KState) : KState :=
  let s := s.setCurenv c none
  let s := s.lcr3 c s.kernPgdir
  s.setCpu c { s.cpus c with cpuStatus := .halted, mode := .halted }

/-- `env_run` on `e` leaves the kernel in state `t`. -/
def Runs (c : CpuIdx) (e : EnvIdx) (s t : KState) : Prop :=
  ∃ pd, (s.envs e).envPgdir = some pd ∧ t = resume c e pd (preempt c s)

/-- `sched_yield` leaves the kernel in state `t`. -/
inductive Yields (c : CpuIdx) (s : KState) : KState → Prop
  | pick {e : EnvIdx} {t : KState} : schedPick s (schedBegin s c) = some e → Runs c e s t →
      Yields c s t
  | stay {cur : EnvIdx} {t : KState} : schedPick s (schedBegin s c) = none →
      s.curenv c = some cur → (s.envs cur).envStatus = .running → Runs c cur s t → Yields c s t
  | halt : schedPick s (schedBegin s c) = none →
      (∀ cur, s.curenv c = some cur → (s.envs cur).envStatus ≠ .running) →
      (∃ e, (s.envs e).envStatus.busy = true) → Yields c s (halted c s)

/-- The end of `trap` leaves the kernel in state `t`. -/
inductive Returns (c : CpuIdx) (s : KState) : KState → Prop
  | stay {cur : EnvIdx} {t : KState} : s.curenv c = some cur →
      (s.envs cur).envStatus = .running → Runs c cur s t → Returns c s t
  | yield {t : KState} : (∀ cur, s.curenv c = some cur → (s.envs cur).envStatus ≠ .running) →
      Yields c s t → Returns c s t

section

variable {α : Type} {c : CpuIdx} {s : KState} {R : KState → Prop} {Q : Unit → KState → Prop}

/-- Preemption concerns the status only. -/
theorem preempt_pgdir (c : CpuIdx) (s : KState) (e : EnvIdx) :
    ((preempt c s).envs e).envPgdir = (s.envs e).envPgdir := by
  unfold preempt
  split
  · rfl
  · split
    · rename_i cur _ _
      by_cases he : e = cur
      · subst he; simp [KState.setEnv]
      · simp [KState.setEnv, he]
    · rfl

/-- `env_run` does not return: it ends in user mode, as `Runs` says, or panics. -/
theorem envRun_wp {e : EnvIdx} (h : ∀ t, Runs c e s t → R t) : wp (envRun c e) Q (Leaves R) s := by
  have tail : ∀ s', s' = preempt c s → wp (envRunRest c e) Q (Leaves R) s' := by
    rintro s' rfl
    simp only [envRunRest, wp_bind, wp_modify, wp_get]
    have hpd : ∀ v : Env, v.envPgdir = ((preempt c s).envs e).envPgdir →
        ((((preempt c s).setCurenv c (some e)).setEnv e v).envs e).envPgdir
          = (s.envs e).envPgdir := by
      intro v hv
      simp [KState.setEnv, hv, preempt_pgdir]
    split
    · simp
    · rename_i pd hd
      simp only [wp_bind, wp_set, wp_modify, wp_throw, leaves_leave]
      exact h _ ⟨pd, (hpd _ (by rfl)).symm.trans hd, rfl⟩
  unfold envRun
  simp only [wp_bind, wp_get]
  cases hc : s.curenv c with
  | none => exact tail s (by simp [preempt, hc])
  | some cur =>
    simp only [wp_ite]
    refine ⟨fun hr => ?_, fun hr => ?_⟩
    · rw [wp_bind, wp_set]
      exact tail _ (by simp [preempt, hc, hr])
    · exact tail s (by simp [preempt, hc, hr])

/-- The CPU halts, or enters the monitor if nothing is left to run. -/
theorem schedHalt_wp (h : (∃ e, (s.envs e).envStatus.busy = true) → R (halted c s)) :
    wp (schedHalt c) Q (Leaves R) s := by
  unfold schedHalt
  simp only [wp_bind, wp_get, wp_ite, wp_throw, wp_modify, leaves_monitor, implies_true, true_and]
  intro hb
  rw [leaves_leave]
  refine h ?_
  by_contra hn
  exact hb fun e => by
    by_contra he
    exact hn ⟨e, by simpa using he⟩

/-- The search finds an environment, or the current one goes on, or the CPU halts. -/
theorem schedYield_wp (h : ∀ t, Yields c s t → R t) : wp (schedYield c) Q (Leaves R) s := by
  unfold schedYield
  simp only [wp_bind, wp_get]
  cases hp : schedPick s (schedBegin s c) with
  | some e => exact envRun_wp fun t ht => h t (.pick hp ht)
  | none =>
    simp only
    cases hc : s.curenv c with
    | none =>
      have hno : ∀ cur, s.curenv c = some cur → (s.envs cur).envStatus ≠ .running := by
        simp [hc]
      exact schedHalt_wp fun hb => h _ (.halt hp hno hb)
    | some cur =>
      simp only [wp_ite]
      refine ⟨fun hr => envRun_wp fun t ht => h t (.stay hp hc hr ht), fun hr => ?_⟩
      refine schedHalt_wp fun hb => h _ (.halt hp (fun cur' hcur => ?_) hb)
      rw [hc] at hcur
      cases hcur
      exact hr

/-- A trap ends in the environment that it interrupted, unless that is not running any more. -/
theorem trapReturn_wp (h : ∀ t, Returns c s t → R t) : wp (trapReturn c) Q (Leaves R) s := by
  unfold trapReturn
  simp only [wp_bind, wp_get]
  cases hc : s.curenv c with
  | none =>
    exact schedYield_wp fun t ht => h t (.yield (fun cur hcur => by rw [hc] at hcur; cases hcur) ht)
  | some cur =>
    simp only [wp_ite]
    refine ⟨fun hr => envRun_wp fun t ht => h t (.stay hc hr ht), fun hr => ?_⟩
    refine schedYield_wp fun t ht => h t (.yield (fun cur' hcur => ?_) ht)
    rw [hc] at hcur
    cases hcur
    exact hr

end

/-! ### Each exit is taken -/

section

variable {c : CpuIdx} {e : EnvIdx} {s t : KState}

/-- The converse of `envRun_wp`: what `Runs` allows is what happens. -/
theorem envRun_run (h : Runs c e s t) : envRun c e s = .error .leave t := by
  obtain ⟨pd, hpd, rfl⟩ := h
  have tail : ∀ s', s' = preempt c s →
      envRunRest c e s' = .error .leave (resume c e pd (preempt c s)) := by
    rintro s' rfl
    have hpd' : ∀ v : Env, v.envPgdir = ((preempt c s).envs e).envPgdir →
        ((((preempt c s).setCurenv c (some e)).setEnv e v).envs e).envPgdir = some pd := by
      intro v hv
      simp [KState.setEnv, hv, preempt_pgdir, hpd]
    simp only [envRunRest, run_bind, run_modify, run_get]
    rw [hpd']
    · rfl
    · rfl
  unfold envRun
  simp only [run_bind, run_get]
  cases hc : s.curenv c with
  | none => exact tail s (by simp [preempt, hc])
  | some cur =>
    by_cases hr : (s.envs cur).envStatus = .running
    · simp only [if_pos hr]
      rw [run_bind, run_set]
      exact tail _ (by simp [preempt, hc, hr])
    · simp only [if_neg hr]
      exact tail s (by simp [preempt, hc, hr])

theorem schedHalt_run (h : ∃ e, (s.envs e).envStatus.busy = true) :
    schedHalt c s = .error .leave (halted c s) := by
  obtain ⟨e, he⟩ := h
  have hb : ¬ ∀ e, (s.envs e).envStatus.busy = false := fun hx => by
    rw [hx e] at he
    cases he
  simp only [schedHalt, run_bind, run_get, run_ite, if_neg hb, run_modify, run_throw]
  rfl

theorem schedYield_run (h : Yields c s t) : schedYield c s = .error .leave t := by
  cases h with
  | pick hp hr =>
    simp only [schedYield, run_bind, run_get, hp]
    exact envRun_run hr
  | stay hp hc hs hr =>
    simp only [schedYield, run_bind, run_get, hp, hc, run_ite, if_pos hs]
    exact envRun_run hr
  | halt hp hc hb =>
    simp only [schedYield, run_bind, run_get, hp]
    cases hcur : s.curenv c with
    | none => exact schedHalt_run hb
    | some cur =>
      simp only [run_ite, if_neg (hc cur hcur)]
      exact schedHalt_run hb

theorem trapReturn_run (h : Returns c s t) : trapReturn c s = .error .leave t := by
  cases h with
  | stay hc hs hr =>
    simp only [trapReturn, run_bind, run_get, hc, run_ite, if_pos hs]
    exact envRun_run hr
  | yield hc hy =>
    simp only [trapReturn, run_bind, run_get]
    cases hcur : s.curenv c with
    | none => exact schedYield_run hy
    | some cur =>
      simp only [run_ite, if_neg (hc cur hcur)]
      exact schedYield_run hy

end

/-! ### What the exits do to environments and CPUs -/

section

variable {c : CpuIdx} {e : EnvIdx} {s t : KState}

/-- Only the environment that was running on `c` becomes runnable again. -/
theorem preempt_envs (x : EnvIdx) :
    (preempt c s).envs x = if s.curenv c = some x ∧ (s.envs x).envStatus = .running then
      { s.envs x with envStatus := .runnable } else s.envs x := by
  unfold preempt
  cases hc : s.curenv c with
  | none => simp
  | some cur =>
    by_cases hx : x = cur
    · subst hx
      by_cases hr : (s.envs x).envStatus = .running <;> simp [hr, KState.setEnv]
    · have hx' : ¬ cur = x := fun h => hx h.symm
      by_cases hr : (s.envs cur).envStatus = .running <;> simp [hr, KState.setEnv, hx, hx']

theorem preempt_cpus : (preempt c s).cpus = s.cpus := by
  unfold preempt
  split
  · rfl
  · split <;> rfl

theorem resume_envs {d : Nat} (x : EnvIdx) :
    (resume c e d s).envs x = if x = e then
      { s.envs e with envStatus := .running, envRuns := (s.envs e).envRuns + 1, envCpunum := c }
    else s.envs x := by
  by_cases hx : x = e
  · subst hx; simp [resume, KState.setEnv, KState.setCpu, KState.lcr3, KState.setCurenv]
  · simp [resume, KState.setEnv, KState.setCpu, KState.lcr3, KState.setCurenv, hx]

theorem resume_cpus {d : Nat} :
    (resume c e d s).cpus = Function.update s.cpus c
      { s.cpus c with cpuEnv := some e, mode := .user } := by
  simp [resume, KState.setEnv, KState.setCpu, KState.lcr3, KState.setCurenv]

theorem resume_mem {d : Nat} : (resume c e d s).mem = s.mem := rfl

/-- Loading a directory empties the cache, and what is cached then is what the new tables say. -/
theorem resume_tlb {d v f : Nat} :
    (resume c e d s).tlb c v f = true ↔ walk s.mem d v = some f := by
  have : (resume c e d s).tlb c v f = decide (walk s.mem d v = some f) :=
    congrArg (fun b : Tlb => b v f) (Function.update_self c _ s.tlb)
  rw [this, decide_eq_true_iff]

theorem halted_cpus :
    (halted c s).cpus = Function.update s.cpus c ⟨.halted, none, .halted⟩ := by
  simp [halted, KState.setCpu, KState.lcr3, KState.setCurenv]

end

end Jos
