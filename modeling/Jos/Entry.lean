import Jos.TrapInv

/-!
  What `trap` does before and after it dispatches: the frame of an environment is saved, a marked
  environment is freed, and an environment that is destroyed does not come back. -/

namespace Jos

open Lib RefCount

section

variable {c : CpuIdx} {cur : EnvIdx} {s : KState} {L : List Nat} {d : Nat}

/-- Code after a call that does not return is not reached. -/
theorem bind_stops {x : K Unit} (f : Unit → K Unit) (h : ∀ t, x s ≠ .ok () t) :
    (x >>= f) s = x s := by
  rw [run_bind]
  cases hx : x s with
  | ok a t => exact absurd hx (h t)
  | error e t => rfl

theorem schedYield_stops (s t : KState) : schedYield c s ≠ .ok () t := fun h => by
  have hwp : wp (schedYield c) (fun _ _ => False) (Leaves fun _ => True) s :=
    schedYield_wp fun _ _ => trivial
  exact (wp_ok h).mp hwp

/-- The environment is gone and another one is chosen; no page was written but the tables that it
    gave back. -/
def Killed (s : KState) (c : CpuIdx) (cur : EnvIdx) (r : EStateM.Result Stop KState Unit) : Prop :=
  ∃ u : KState, (u.envs cur).envStatus = .free ∧ (∀ f, NotTable s f → u.mem f = s.mem f) ∧
    r = schedYield c (u.setCurenv c none)

/-- An update of environments and CPUs, on the way to the end of the current environment. -/
theorem envFree_gone {u : KState} (h : PageInv s L ∅) (hd : (s.envs cur).envPgdir = some d)
    (ha : Alike s u) (hcu : u.curenv c = some cur) : ∃ v, envFree c cur u = .ok () v ∧
      v.curenv c = some cur ∧ (v.envs cur).envStatus = .free ∧
      ∀ f, NotTable s f → v.mem f = s.mem f := by
  have hu : PageInv u L ∅ := pageInv_congr h ha.mem ha.dir ha.pages ha.freeList ha.limits
  have hdu : (u.envs cur).envPgdir = some d := (ha.dir cur).trans hd
  obtain ⟨v, hrun, hgone, -⟩ := envFree_spec c hu hdu
  refine ⟨v, hrun, ?_, ?_, fun f hf => ?_⟩
  · unfold KState.curenv at hcu ⊢
    rw [hgone.cpus]
    exact hcu
  · rw [hgone.envs, Function.update_self]
  · have hf' : NotTable u f := by
      unfold NotTable at hf ⊢
      rw [ha.target, ha.limits.kernPgdir]
      exact hf
    rw [hgone.data f hf', ha.mem]

/-- `env_destroy` of the current environment. -/
theorem envDestroy_killed {u : KState} (h : PageInv s L ∅) (hd : (s.envs cur).envPgdir = some d)
    (ha : Alike s u) (hcu : u.curenv c = some cur) : Killed s c cur (envDestroy c cur u) := by
  obtain ⟨v, hrun, hcv, hfree, hmem⟩ := envFree_gone h hd ha hcu
  refine ⟨v, hfree, hmem, ?_⟩
  have hno : ¬ ((u.envs cur).envStatus = .running ∧ u.curenv c ≠ some cur) := fun hx => hx.2 hcu
  simp only [envDestroy, run_bind, run_get, run_ite, if_neg hno, hrun, if_pos hcv, run_set]

theorem Killed.stops {x : K Unit} {u : KState} (h : Killed s c cur (x u)) (t : KState) :
    x u ≠ .ok () t := by
  obtain ⟨v, -, -, hx⟩ := h
  rw [hx]
  exact schedYield_stops _ t

theorem saved_alike (tf : Trapframe) : Alike s (saved c cur tf s) :=
  (Alike.setCpu s c _).trans (Alike.setEnv rfl rfl Iff.rfl)

/-- A panic in the choice of another environment comes too late to find `cur` current. -/
theorem schedYield_panic {v t : KState} (hv : v.curenv c = none) (hf : (v.envs cur).envStatus = .free)
    (h : schedYield c v = .error .panic t) : t.curenv c ≠ some cur := by
  have hwp : wp (schedYield c) (fun _ _ => True)
      (fun x t => x = .panic → t.curenv c ≠ some cur) v := by
    unfold schedYield
    simp only [wp_bind, wp_get]
    cases hp : schedPick v (schedBegin v c) with
    | some e =>
      have hne : e ≠ cur := by
        rintro rfl
        have hr : (v.envs e).envStatus = .runnable := by simpa using List.find?_some hp
        exact absurd (hf.symm.trans hr) (by decide)
      unfold envRun
      simp only [wp_bind, wp_get, hv, wp_modify]
      split
      · refine (wp_throw _).mpr fun _ => ?_
        simpa [KState.curenv, KState.setCurenv, KState.setCpu, KState.setEnv] using hne
      · simp [wp_bind]
    | none =>
      simp only [hv]
      unfold schedHalt
      simp only [wp_bind, wp_get, wp_ite, wp_modify]
      exact ⟨fun _ => by simp, fun _ => by simp⟩
  exact hwp.error h rfl

/-- Being killed is no panic of the kernel on the way in. -/
theorem Killed.ne_panic (hc : s.curenv c = some cur) {t : KState} (ht : t.curenv c = s.curenv c) :
    ¬ Killed s c cur (.error .panic t) := by
  rintro ⟨u, hfree, -, hu⟩
  refine schedYield_panic (v := u.setCurenv c none) ?_ hfree hu.symm (ht.trans hc)
  simp [KState.curenv, KState.setCurenv, KState.setCpu]

/-! ### The lock is taken -/

theorem curenv_started {e : Option EnvIdx} (hc : s.curenv c = e) :
    (s.setCpu c { s.cpus c with cpuStatus := .started }).curenv c = e := by
  simpa [KState.curenv, KState.setCpu] using hc

theorem cs_user {tf : Trapframe} (hcs : tf.tfCs = gdUt ||| 3) : tf.tfCs &&& 3 = 3 := by
  rw [hcs]
  decide

/-- Taking the lock, when the frame pointers can be followed. -/
theorem callers_run {inp : Input} {tf : Trapframe} (hk : CallersOk s c inp tf) :
    getCallerPcs c inp inp.callers tf.tfRegs.regEbp
        (s.setCpu c { s.cpus c with cpuStatus := .started }) =
      .ok () (s.setCpu c { s.cpus c with cpuStatus := .started }) :=
  getCallerPcs_run (hk.congr (show (started c s).mem = s.mem from rfl) rfl rfl)

/-- A trap from user mode with a frame pointer that the kernel cannot follow. -/
theorem trap_faults {inp : Input} {tf : Trapframe} (hcs : tf.tfCs = gdUt ||| 3)
    (hc : s.curenv c = some cur) (hk : ¬ CallersOk s c inp tf) :
    trap c inp tf s = .error .panic (started c s) := by
  have hp : getCallerPcs c inp inp.callers tf.tfRegs.regEbp
      (s.setCpu c { s.cpus c with cpuStatus := .started }) = .error .panic (started c s) :=
    getCallerPcs_faults fun h => hk (h.congr (show s.mem = (started c s).mem from rfl) rfl rfl)
  simp only [trap, run_bind, run_modify, if_pos (cs_user hcs),
    getCurenv_run (curenv_started hc), hp]

/-- A trap from user mode saves its frame and dispatches. -/
theorem trap_user {inp : Input} {tf : Trapframe} (hcs : tf.tfCs = gdUt ||| 3)
    (hc : s.curenv c = some cur) (hk : CallersOk s c inp tf) (hnd : (s.envs cur).envStatus ≠ .dying) :
    trap c inp tf s = (trapDispatch c inp tf >>= fun _ => trapReturn c) (saved c cur tf s) := by
  have hnd' : ¬ ((s.setCpu c { s.cpus c with cpuStatus := .started }).envs cur).envStatus = .dying :=
    hnd
  simp only [trap, run_bind, run_modify, if_pos (cs_user hcs),
    getCurenv_run (curenv_started hc), callers_run hk, run_get, if_neg hnd']
  rfl

theorem cs_of_allowed {tf : Trapframe} (ha : TrapAllowed s c tf) (hm : (s.cpus c).mode = .user) :
    tf.tfCs = gdUt ||| 3 := by
  rcases ha with ⟨-, hcs⟩ | ⟨hh, -⟩
  · exact hcs
  · exact absurd (hm.symm.trans hh) (by decide)

/-- Where a trap from user mode is survived, the frame pointers could be followed. -/
theorem callersOk_of_step {inp : Input} {tf : Trapframe} {t : KState} (ha : TrapAllowed s c tf)
    (hm : (s.cpus c).mode = .user) (hc : s.curenv c = some cur) (hst : Step s (c, .trap inp tf) t) :
    CallersOk s c inp tf := by
  by_contra hk
  simp only [Step, step, if_pos ha, enter_eq_some, trap_faults (cs_of_allowed ha hm) hc hk] at hst
  injection hst with hst
  cases hst

/-- Of an environment that is not marked, what follows from the dispatch follows of the trap. -/
theorem trap_user_wp {inp : Input} {tf : Trapframe} {Q : Unit → KState → Prop}
    {R : Stop → KState → Prop} (hcs : tf.tfCs = gdUt ||| 3) (hc : s.curenv c = some cur)
    (hnd : (s.envs cur).envStatus ≠ .dying) (hR : R .panic (started c s))
    (h : wp (trapDispatch c inp tf >>= fun _ => trapReturn c) Q R (saved c cur tf s)) :
    wp (trap c inp tf) Q R s := by
  by_cases hk : CallersOk s c inp tf
  · rwa [wp_of_eq (trap_user hcs hc hk hnd)]
  · exact (wp_error (trap_faults hcs hc hk)).mpr hR

/-- A marked environment is freed when it traps. -/
theorem trap_marked {inp : Input} {tf : Trapframe} (h : PageInv s L ∅)
    (hd : (s.envs cur).envPgdir = some d) (hcs : tf.tfCs = gdUt ||| 3)
    (hc : s.curenv c = some cur) (hk : CallersOk s c inp tf) (hdy : (s.envs cur).envStatus = .dying) :
    Killed s c cur (trap c inp tf s) := by
  have hdy' : ((s.setCpu c { s.cpus c with cpuStatus := .started }).envs cur).envStatus = .dying :=
    hdy
  obtain ⟨v, hrun, -, hfree, hmem⟩ := envFree_gone h hd (Alike.setCpu s c _) (curenv_started hc)
  refine ⟨v, hfree, hmem, ?_⟩
  simp only [trap, run_bind, run_modify, if_pos (cs_user hcs),
    getCurenv_run (curenv_started hc), callers_run hk, run_get, if_pos hdy', hrun]
  cases hy : schedYield c (v.setCurenv c none) with
  | ok a t => exact absurd hy (schedYield_stops _ t)
  | error e t => rfl

end

end Jos
