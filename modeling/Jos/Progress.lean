import Jos.Fault
import Jos.Isolation
import Jos.Printf

/-!
  When the kernel fails.

  Every entry into the kernel ends: the CPU goes back to user code, halts, enters the monitor, or the
  kernel fails, by a `panic`, an assertion, or a fault of its own. In runs that stay clear of the
  unguarded cases, four events make it fail, and no others do. -/

namespace Jos

open Lib RefCount Fmt

/-- Something that can happen on CPU `c`. -/
def Possible (s : KState) (c : CpuIdx) : Event → Prop
  | .trap _ tf => TrapAllowed s c tf
  | .store va _ via => (s.cpus c).mode = .user ∧ storeFrame s c va via ≠ none
  | .start => (s.cpus c).mode = .starting

/-- The kernel code that an event runs. -/
def kernelCode (c : CpuIdx) : Event → Option (K Unit)
  | .trap inp tf => some (trap c inp tf)
  | .store _ _ _ => none
  | .start => some (schedYield c)

/-- The kernel code of the event ends with `x`. -/
def EndsWith (s : KState) (c : CpuIdx) (ev : Event) (x : Stop) : Prop :=
  ∃ k t, kernelCode c ev = some k ∧ k s = .error x t

/-- `sys_cputs` goes on to print: the range has been accepted. -/
structure Prints (s : KState) (c : CpuIdx) (cur : EnvIdx) (tf : Trapframe) : Prop where
  user : InUser s c cur
  no : tf.tfTrapno = tSyscall ∧ (Call.ofTf tf).no = 0
  accepted : Accepted (saved c cur tf s) cur (Call.ofTf tf).a1 (Call.ofTf tf).a2

/-- The kernel does not survive the event: it panics, or printing a user's string does not return. -/
inductive Fails (s : KState) (c : CpuIdx) : Event → Prop
  | panics {ev : Event} : EndsWith s c ev .panic → Fails s c ev
  | prints {inp : Input} {tf : Trapframe} {cur : EnvIdx} {x : Crash} : Prints s c cur tf →
      Kern.cputs (s.view c) (Call.ofTf tf).a1 (Call.ofTf tf).a2 = .error x →
      Fails s c (.trap inp tf)

/-- The string at `a` ends, or the precision does, on a mapped page, and all before it is mapped. -/
def Printable (view : View) (a len : Word) : Prop :=
  a = 0 ∨ ∃ k : Nat, k < 2 ^ 32 ∧ (∀ j ≤ k, view (a + BitVec.ofNat 32 j) ≠ none) ∧
    (view (a + BitVec.ofNat 32 k) = some 0 ∨ (k : Int) = len.toInt)

/-- `sys_ipc_try_send` follows its unset `pte`, and nothing is mapped where that leads: a page is to
    be sent from an aligned address where the sender has none, to an environment that waits. -/
structure FollowsUnset (s : KState) (cur : EnvIdx) (call : Call) (inp : Input) : Prop where
  no : call.no = 11
  awaits : ∃ env, Awaits s cur call.a1 env
  source : call.a3 < utop ∧ call.a3 = rounddown call.a3
  unmapped : mappedAt s cur call.a3 = none
  stray : inp.strayPte = none

/-- What makes the kernel fail: an interrupt other than the timer's while the CPU is halted; a frame
    pointer of user code that leads to kernel addresses where nothing is mapped; a page sent from an
    address where nothing is mapped, if the unset pointer leads nowhere; and a string that runs into
    an unmapped page, or over all of memory. -/
inductive Fatal (s : KState) (c : CpuIdx) : Event → Prop
  | unexpected {inp : Input} {tf : Trapframe} : (s.cpus c).mode = .halted →
      tf.tfTrapno ≠ irqTimer → Fatal s c (.trap inp tf)
  | callers {inp : Input} {tf : Trapframe} : (s.cpus c).mode = .user → ¬ CallersOk s c inp tf →
      Fatal s c (.trap inp tf)
  | unset {inp : Input} {tf : Trapframe} {cur : EnvIdx} : InUser s c cur →
      tf.tfTrapno = tSyscall → FollowsUnset s cur (Call.ofTf tf) inp → Fatal s c (.trap inp tf)
  | unprintable {inp : Input} {tf : Trapframe} {cur : EnvIdx} : Prints s c cur tf →
      ¬ Printable (s.view c) (Call.ofTf tf).a1 (Call.ofTf tf).a2 → Fatal s c (.trap inp tf)

/-- Kernel code that stops, but not by a panic. -/
def NoPanic (x : Stop) (_ : KState) : Prop := x ≠ .panic

@[simp] theorem noPanic_leave {t : KState} : NoPanic .leave t := by simp [NoPanic]

@[simp] theorem noPanic_monitor {t : KState} : NoPanic .monitor t := by simp [NoPanic]

section

variable {T : Prop} {c : CpuIdx} {cur e : EnvIdx} {s : KState} {H : Finset Nat}
  {Q : Unit → KState → Prop}

/-! ### Leaving the kernel -/

theorem schedHalt_noPanic : wp (schedHalt c) Q NoPanic s := by
  by_cases hb : ∃ e, (s.envs e).envStatus.busy = true
  · exact (wp_error (schedHalt_run hb)).mpr noPanic_leave
  · have hall : ∀ e, (s.envs e).envStatus.busy = false := fun e => by
      by_contra he
      exact hb ⟨e, by simpa using he⟩
    have hrun : schedHalt c s = .error .monitor s := by
      simp only [schedHalt, run_bind, run_get, run_ite, if_pos hall, run_throw]
    exact (wp_error hrun).mpr noPanic_monitor

/-- The environment that is chosen has a page directory. -/
theorem schedYield_noPanic (h : Core H s) : wp (schedYield c) Q NoPanic s := by
  cases hp : schedPick s (schedBegin s c) with
  | some e =>
    have hr := schedPick_runnable hp
    obtain ⟨d, hd⟩ := h.dir_of_live (e := e) (by simp [hr])
    exact (wp_error (schedYield_run (.pick hp ⟨d, hd, rfl⟩))).mpr noPanic_leave
  | none =>
    unfold schedYield
    simp only [wp_bind, wp_get, hp]
    cases hc : s.curenv c with
    | none => exact schedHalt_noPanic
    | some cur =>
      simp only [wp_ite]
      refine ⟨fun hr => ?_, fun _ => schedHalt_noPanic⟩
      obtain ⟨d, hd⟩ := h.dir_of_live (e := cur) (by simp [hr])
      exact (wp_error (envRun_run ⟨d, hd, rfl⟩)).mpr noPanic_leave

theorem trapReturn_noPanic (h : Core H s) : wp (trapReturn c) Q NoPanic s := by
  unfold trapReturn
  simp only [wp_bind, wp_get]
  cases hc : s.curenv c with
  | none => exact schedYield_noPanic h
  | some cur =>
    simp only [wp_ite]
    refine ⟨fun hr => ?_, fun _ => schedYield_noPanic h⟩
    obtain ⟨d, hd⟩ := h.dir_of_live (e := cur) (by simp [hr])
    exact (wp_error (envRun_run ⟨d, hd, rfl⟩)).mpr noPanic_leave

/-! ### `env_destroy` and `user_mem_assert` -/

/-- An environment that only this CPU may be running can be freed. -/
theorem envDestroy_noPanic (h : Mid T c ∅ s) (hm : MayDestroy s c e)
    (hl : (s.envs e).envStatus ≠ .free) :
    wp (envDestroy c e) (fun _ _ => s.curenv c ≠ some e) NoPanic s := by
  unfold envDestroy
  simp only [wp_bind, wp_get, wp_ite, wp_set]
  refine ⟨fun hr => hr.2, fun hr => ?_⟩
  obtain ⟨d, hd⟩ := h.core.dir_of_live hl
  obtain ⟨t, hrun, ht, hg⟩ := h.envFree hd (hm.resolve_left hr)
  have hct : t.curenv c = s.curenv c := by
    unfold KState.curenv
    rw [hg.cpus]
  rw [wp_ok hrun, hct]
  exact ⟨fun _ => schedYield_noPanic (ht.setCpu _).core, fun hne => (wp_pure _).mpr hne⟩

/-- `user_mem_check` returns. -/
theorem userMemCheck_returns (h : Core ∅ s) (hl : (s.envs e).envStatus ≠ .free) (va len perm : Word) :
    ∃ r a, userMemCheck e va len perm s = .ok r { s with userMemCheckAddr := a } := by
  obtain ⟨d, hd⟩ := h.dir_of_live hl
  rw [userMemCheck_eq hd]
  by_cases hle : (roundup (va + len)).toNat ≤ (rounddown va).toNat
  · exact ⟨.ok (), s.userMemCheckAddr, userMemCheckLoop_done hle _⟩
  · obtain ⟨n, hn⟩ : ∃ n, (roundup (va + len)).toNat = (rounddown va).toNat + 4096 * n := by
      refine ⟨((roundup (va + len)).toNat - (rounddown va).toNat) / 4096, ?_⟩
      rw [roundup_toNat_mod, rounddown_toNat] at hle ⊢
      omega
    have hlt := (roundup (va + len)).isLt
    rcases userMemCheckLoop_run va perm (h.dirOk hd) _ (2 ^ 20) n _ hn (by omega) with
      ⟨-, hrun⟩ | ⟨i, -, -, -, hrun⟩
    · exact ⟨.ok (), s.userMemCheckAddr, hrun⟩
    · exact ⟨.error .fault, _, hrun⟩

/-- `user_mem_assert` on the current environment. -/
theorem userMemAssert_noPanic (h : Mid T c ∅ s) (hl : (s.envs cur).envStatus ≠ .free)
    (hno : ¬ Elsewhere s c cur) (va len perm : Word) :
    wp (userMemAssert c cur va len perm) (fun _ _ => True) NoPanic s := by
  obtain ⟨r, a, hrun⟩ := userMemCheck_returns h.core hl va len (perm ||| pteU)
  unfold userMemAssert
  rw [wp_bind, wp_ok hrun]
  cases r with
  | ok u => exact (wp_pure _).mpr trivial
  | error err =>
    exact (envDestroy_noPanic (h.checkAddr a) (.inr hno) hl).mono (fun _ _ _ => trivial)
      fun _ _ hx => hx

/-! ### Page faults -/

theorem pageFaultHandler_noPanic {inp : Input} {tf : Trapframe} (h : Mid T c ∅ s)
    (hn : NoStale s c inp)
    (hc : s.curenv c = some cur) (hno : ¬ Elsewhere s c cur)
    (hd : (s.envs cur).envPgdir = some (s.cr3 c)) (hcs : tf.tfCs = gdUt ||| 3)
    (htf : (s.envs cur).envTf = tf) :
    wp (pageFaultHandler c inp tf) Q NoPanic s := by
  have hl : (s.envs cur).envStatus ≠ .free := fun hf => by
    obtain ⟨Le, hLe⟩ := h.core.envs
    rw [(hLe.dir cur).mpr hf] at hd
    cases hd
  have h3 : ¬ tf.tfCs &&& 3 = 0 := by
    rw [hcs]
    decide
  -- the environment is destroyed, and the CPU does not come back from that
  have gone : ∀ {u : KState} {Q : Unit → KState → Prop}, Mid T c ∅ u → u.curenv c = some cur →
      ¬ Elsewhere u c cur → (u.envs cur).envStatus ≠ .free →
      wp (envDestroy c cur) Q NoPanic u := fun hu hcu hnu hlu =>
    (envDestroy_noPanic hu (.inr hnu) hlu).mono (fun _ _ hx => absurd hcu hx) fun _ _ hx => hx
  by_cases hup : (s.envs cur).envPgfaultUpcall ≠ 0
  · rcases frame_check (c := c) h.core hd tf.tfEsp with ⟨hfit, -⟩ | ⟨-, a, hrun⟩
    · rcases pageFaultHandler_run h.core hn hc hd hcs hup htf with ⟨-, t, ht, -⟩ | ⟨hx, -⟩
      · exact (wp_error ht).mpr noPanic_leave
      · exact absurd hfit hx
    · unfold pageFaultHandler
      simp only [wp_ite]
      refine ⟨fun hx => absurd hx h3, fun _ => ?_⟩
      rw [wp_bind, wp_ok (getCurenv_run hc)]
      simp only [wp_bind, wp_get, wp_ite]
      refine ⟨fun _ => ?_, fun hx => absurd hup hx⟩
      rw [wp_of_eq hrun]
      exact gone (h.checkAddr a) hc hno hl
  · unfold pageFaultHandler
    simp only [wp_ite]
    refine ⟨fun hx => absurd hx h3, fun _ => ?_⟩
    rw [wp_bind, wp_ok (getCurenv_run hc)]
    simp only [wp_bind, wp_get, wp_ite]
    exact ⟨fun hx => absurd hx hup, fun _ => gone h hc hno hl⟩

/-! ### System calls -/

/-- A call that returns. -/
theorem noPanic_of_ok {α : Type} {x : K α} {a : α} {t : KState} (h : x s = .ok a t) :
    wp x (fun _ _ => True) NoPanic s := (wp_ok h).mpr trivial

theorem sysPageAlloc_noPanic (h : Core ∅ s) (hc : s.curenv c = some cur)
    (hl : (s.envs cur).envStatus ≠ .free) (envid va perm : Word) :
    wp (sysPageAlloc c envid va perm) (fun _ _ => True) NoPanic s := by
  obtain ⟨L, hL⟩ := h.page
  cases hk : lookupEnv s cur envid true with
  | none =>
    refine noPanic_of_ok (a := .error .badEnv) (t := s) ?_
    simp only [sysPageAlloc, run_bind, envid2env_run hc, hk, run_pure]
  | some e =>
    obtain ⟨d, hd⟩ := h.dir_of_live (lookupEnv_live hl hk)
    by_cases hva : vaOk va = false
    · refine noPanic_of_ok (a := .error .inval) (t := s) ?_
      simp only [sysPageAlloc, run_bind, envid2env_run hc, hk, if_pos hva, run_pure]
    by_cases hperm : permOk perm = false
    · refine noPanic_of_ok (a := .error .inval) (t := s) ?_
      simp only [sysPageAlloc, run_bind, envid2env_run hc, hk, if_neg hva, if_pos hperm, run_pure]
    rcases sysPageAlloc_run hL hc hk hd (by simpa using hva) (by simpa using hperm) with
      ⟨-, hr⟩ | ⟨t, -, -, hr⟩ | ⟨-, -, t, -, -, hr, -⟩
    · exact noPanic_of_ok hr
    · exact noPanic_of_ok hr
    · exact noPanic_of_ok hr

theorem sysPageMap_noPanic (h : Core ∅ s) (hc : s.curenv c = some cur)
    (hl : (s.envs cur).envStatus ≠ .free) (srcenvid srcva dstenvid dstva perm : Word) :
    wp (sysPageMap c srcenvid srcva dstenvid dstva perm) (fun _ _ => True) NoPanic s := by
  obtain ⟨L, hL⟩ := h.page
  cases hk : lookupEnv s cur srcenvid true with
  | none =>
    refine noPanic_of_ok (a := .error .badEnv) (t := s) ?_
    simp only [sysPageMap, run_bind, envid2env_run hc, hk, run_pure]
  | some src =>
    cases hk' : lookupEnv s cur dstenvid true with
    | none =>
      refine noPanic_of_ok (a := .error .badEnv) (t := s) ?_
      simp only [sysPageMap, run_bind, envid2env_run hc, hk, hk', run_pure]
    | some dst =>
      obtain ⟨d, hd⟩ := h.dir_of_live (lookupEnv_live hl hk)
      obtain ⟨d', hd'⟩ := h.dir_of_live (lookupEnv_live hl hk')
      by_cases hmay : MayMap s src srcva dstva perm
      · rcases sysPageMap_run hL hc hk hk' hd hd' hmay with ⟨-, hr⟩ | ⟨-, f, t, hr, -⟩
        · exact noPanic_of_ok hr
        · exact noPanic_of_ok hr
      · exact noPanic_of_ok (sysPageMap_inval hL hc hk hk' hd hmay)

theorem sysPageUnmap_noPanic (h : Mid T c ∅ s) (hc : s.curenv c = some cur)
    (hl : (s.envs cur).envStatus ≠ .free) (envid va : Word) :
    wp (sysPageUnmap c envid va) (fun _ _ => True) NoPanic s := by
  obtain ⟨L, hL⟩ := h.core.page
  unfold sysPageUnmap
  rw [wp_bind, wp_ok (envid2env_run hc envid true)]
  cases hk : lookupEnv s cur envid true with
  | none => exact (wp_pure _).mpr trivial
  | some e =>
    simp only [wp_ite, wp_pure]
    refine ⟨fun _ => trivial, fun hva => ?_⟩
    obtain ⟨d, hd⟩ := h.core.dir_of_live (lookupEnv_live hl hk)
    rw [wp_bind, wp_ok (getPgdir_run hd), wp_bind]
    rcases pageRemove_spec c hL hd (pdx_of_vaOk (show vaOk va = true by simpa using hva)) with
      ⟨-, hr⟩ | ⟨f, t, -, hr, -⟩
    · exact (wp_ok hr).mpr ((wp_pure _).mpr trivial)
    · exact (wp_ok hr).mpr ((wp_pure _).mpr trivial)

theorem sysExofork_noPanic (h : Mid T c ∅ s) (hc : s.curenv c = some cur) :
    wp (sysExofork c) (fun _ _ => True) NoPanic s := by
  unfold sysExofork
  rw [wp_bind, wp_ok (getCurenv_run hc)]
  simp only [wp_bind, wp_get]
  rcases h.envAlloc (s.envs cur).envId with ⟨-, err, hrun⟩ | ⟨e, p, t, hrun, -⟩
  · rw [wp_ok hrun]
    exact (wp_pure _).mpr trivial
  · rw [wp_ok hrun]
    simp only [wp_bind, wp_modify, wp_get, wp_pure]

/-- A call that looks an environment up and changes its record. -/
theorem update_noPanic (hc : s.curenv c = some cur) (envid : Word) (err : Err)
    (f : EnvIdx → KState → KState) :
    wp (do
      match ← envid2env c envid true with
      | .error _ => return .error err
      | .ok e =>
        modify (f e)
        return .ok 0 : K (Except Err Word)) (fun _ _ => True) NoPanic s := by
  rw [wp_bind, wp_ok (envid2env_run hc envid true)]
  cases lookupEnv s cur envid true with
  | none => exact (wp_pure _).mpr trivial
  | some e => simp only [wp_bind, wp_modify, wp_pure]

theorem sysEnvSetStatus_noPanic (hc : s.curenv c = some cur) (envid status : Word) :
    wp (sysEnvSetStatus c envid status) (fun _ _ => True) NoPanic s := by
  unfold sysEnvSetStatus
  cases hst : statusOfWord status with
  | none => exact (wp_pure _).mpr trivial
  | some st => exact update_noPanic hc envid _ _

theorem sysEnvSetPgfaultUpcall_noPanic (hc : s.curenv c = some cur) (envid func : Word) :
    wp (sysEnvSetPgfaultUpcall c envid func) (fun _ _ => True) NoPanic s :=
  update_noPanic hc envid _ _

theorem sysEnvDestroy_noPanic {envid : Word} (h : Mid T c ∅ s) (hc : s.curenv c = some cur)
    (hl : (s.envs cur).envStatus ≠ .free)
    (hs : ∀ e, lookupEnv s cur envid true = some e → MayDestroy s c e) :
    wp (sysEnvDestroy c envid) (fun _ _ => True) NoPanic s := by
  unfold sysEnvDestroy
  rw [wp_bind, wp_ok (envid2env_run hc envid true)]
  cases hk : lookupEnv s cur envid true with
  | none => exact (wp_pure _).mpr trivial
  | some e =>
    simp only [wp_bind, wp_pure]
    exact (envDestroy_noPanic h (hs e hk) (lookupEnv_live hl hk)).mono (fun _ _ _ => trivial)
      fun _ _ hx => hx

theorem sysIpcRecv_noPanic (h : Mid T c ∅ s) (hc : s.curenv c = some cur)
    (hl : (s.envs cur).envStatus ≠ .free) (dstva : Word) :
    wp (sysIpcRecv c dstva) (fun _ _ => True) NoPanic s := by
  unfold sysIpcRecv
  simp only [wp_ite, wp_pure]
  refine ⟨fun _ => trivial, fun _ => ?_⟩
  rw [wp_bind, wp_ok (getCurenv_run hc)]
  simp only [wp_bind, wp_modify]
  refine schedYield_noPanic (Mid.core (T := T) (c := c) (H := ∅) ?_)
  exact h.setEnv rfl rfl (by simp [hl])

/-- A send panics only over its unset pointer. -/
theorem sysIpcTrySend_noPanic {inp : Input} {call : Call} (h : Core ∅ s)
    (hc : s.curenv c = some cur) (hl : (s.envs cur).envStatus ≠ .free) (hno : call.no = 11)
    (hn : ¬ FollowsUnset s cur call inp) :
    wp (sysIpcTrySend c inp call.a1 call.a2 call.a3 call.a4) (fun _ _ => True) NoPanic s := by
  obtain ⟨L, hL⟩ := h.page
  cases hk : lookupEnv s cur call.a1 false with
  | none => exact noPanic_of_ok (sysIpcTrySend_missing hc hk inp)
  | some env =>
    by_cases hr : (s.envs env).envIpcRecving = false
    · exact noPanic_of_ok (sysIpcTrySend_deaf hc hk hr inp)
    have haw : Awaits s cur call.a1 env := ⟨hk, by simpa using hr⟩
    by_cases hsrc : call.a3 < utop
    · obtain ⟨d, hd⟩ := h.dir_of_live hl
      obtain ⟨d', hd'⟩ := h.dir_of_live (lookupEnv_live hl hk)
      rcases sysIpcTrySend_run call.a2 call.a4 hL hc hd hd' haw hsrc inp with
        ⟨-, hrun⟩ | ⟨ha, hm, hrun⟩ | ⟨-, -, -, hrun⟩ | ⟨-, -, -, hrun⟩
      · exact noPanic_of_ok hrun
      · cases hp : inp.strayPte with
        | none => exact absurd ⟨hno, ⟨env, haw⟩, ⟨hsrc, ha⟩, hm, hp⟩ hn
        | some w =>
          rw [hp] at hrun
          exact noPanic_of_ok hrun
      · exact noPanic_of_ok hrun
      · rcases hrun with ⟨-, hrun⟩ | ⟨-, -, hrun⟩ | ⟨t, hrun, -⟩
        · exact noPanic_of_ok hrun
        · exact noPanic_of_ok hrun
        · exact noPanic_of_ok hrun
    · exact noPanic_of_ok (sysIpcTrySend_plain hc haw hsrc inp)

/-- Over its unset pointer, a send does panic. -/
theorem FollowsUnset.panics {inp : Input} {call : Call} (hf : FollowsUnset s cur call inp)
    (h : Core ∅ s) (hc : s.curenv c = some cur) (hl : (s.envs cur).envStatus ≠ .free) :
    sysIpcTrySend c inp call.a1 call.a2 call.a3 call.a4 s = .error .panic s := by
  obtain ⟨L, hL⟩ := h.page
  obtain ⟨env, haw⟩ := hf.awaits
  obtain ⟨d, hd⟩ := h.dir_of_live hl
  obtain ⟨d', hd'⟩ := h.dir_of_live (lookupEnv_live hl haw.1)
  rcases sysIpcTrySend_run call.a2 call.a4 hL hc hd hd' haw hf.source.1 inp with
    ⟨hx, -⟩ | ⟨-, -, hrun⟩ | ⟨-, hx, -⟩ | ⟨-, hx, -⟩
  · exact absurd hf.source.2 hx
  · rw [hf.stray] at hrun
    exact hrun
  · exact absurd hf.unmapped hx
  · exact absurd hf.unmapped hx

theorem syscall_noPanic {inp : Input} (call : Call) {w : Word} (h : Mid T c ∅ s)
    (hw : w.toNat = call.no) (hc : s.curenv c = some cur)
    (hl : (s.envs cur).envStatus ≠ .free) (hno : ¬ Elsewhere s c cur)
    (hs : call.Safe s cur T c) (hn : ¬ FollowsUnset s cur call inp) :
    wp (syscall c inp w call.a1 call.a2 call.a3 call.a4 call.a5) (fun _ _ => True) NoPanic s := by
  obtain ⟨no, a1, a2, a3, a4, a5⟩ := call
  unfold syscall
  simp only at hw ⊢
  rw [hw]
  have ret : ∀ {x : K (Except Err Word)}, wp x (fun _ _ => True) NoPanic s →
      wp (do return retCode (← x)) (fun _ _ => True) NoPanic s :=
    fun hx => hx.bind fun _ _ _ => (wp_pure _).mpr trivial
  split
  · refine wp.bind (Q := fun _ _ => True) ?_ fun _ _ _ => (wp_pure _).mpr trivial
    unfold sysCputs
    rw [wp_bind, wp_ok (getCurenv_run hc)]
    exact userMemAssert_noPanic h hl hno _ _ _
  · exact (wp_pure _).mpr trivial
  · unfold sysGetenvid
    rw [wp_bind, wp_ok (getCurenv_run hc)]
    simp only [wp_bind, wp_get, wp_pure]
  · exact ret (sysEnvDestroy_noPanic h hc hl fun e he => hs.destroy e ⟨rfl, he⟩)
  · exact ret (sysPageAlloc_noPanic h.core hc hl _ _ _)
  · exact ret (sysPageMap_noPanic h.core hc hl _ _ _ _ _)
  · exact ret (sysPageUnmap_noPanic h hc hl _ _)
  · exact ret (sysExofork_noPanic h hc)
  · exact ret (sysEnvSetStatus_noPanic hc _ _)
  · exact ret (sysEnvSetPgfaultUpcall_noPanic hc _ _)
  · rw [wp_bind]
    exact schedYield_noPanic h.core
  · exact ret (sysIpcTrySend_noPanic h.core hc hl rfl hn)
  · exact ret (sysIpcRecv_noPanic h hc hl _)
  · exact (wp_pure _).mpr trivial

/-! ### Traps -/

theorem trapDispatch_noPanic {inp : Input} {tf : Trapframe} (h : Mid T c ∅ s)
    (hst : NoStale s c inp) (hc : s.curenv c = some cur) (hno : ¬ Elsewhere s c cur)
    (hd : (s.envs cur).envPgdir = some (s.cr3 c)) (hcs : tf.tfCs = gdUt ||| 3)
    (htf : (s.envs cur).envTf = tf) (hl : (s.envs cur).envStatus ≠ .free)
    (hs : tf.tfTrapno = tSyscall → (Call.ofTf tf).Safe s cur T c)
    (hn : tf.tfTrapno = tSyscall → ¬ FollowsUnset s cur (Call.ofTf tf) inp) :
    wp (trapDispatch c inp tf) (fun _ _ => True) NoPanic s := by
  unfold trapDispatch
  simp only [wp_ite]
  refine ⟨fun _ => ?_, fun _ => ⟨fun _ => by simp, fun _ => ⟨fun hsys => ?_, fun _ =>
    ⟨fun _ => ?_, fun _ => ⟨fun hx => ?_, fun _ => ?_⟩⟩⟩⟩⟩
  · exact pageFaultHandler_noPanic h hst hc hno hd hcs htf
  · rw [wp_bind, wp_ok (getCurenv_run hc), wp_bind]
    refine (syscall_noPanic (Call.ofTf tf) h rfl hc hl hno (hs hsys) (hn hsys)).mono
      (fun w t _ => ?_) fun _ _ hx => hx
    exact (wp_modify _).mpr trivial
  · exact schedYield_noPanic h.core
  · rw [hcs] at hx
    exact absurd hx (by decide)
  · rw [wp_bind, wp_ok (getCurenv_run hc)]
    exact (envDestroy_noPanic h (.inr hno) hl).mono (fun _ _ _ => trivial) fun _ _ hx => hx

theorem followsUnset_saved {inp : Input} {tf : Trapframe} {call : Call} :
    FollowsUnset (saved c cur tf s) cur call inp ↔ FollowsUnset s cur call inp := by
  have haw : ∀ env, Awaits (saved c cur tf s) cur call.a1 env ↔ Awaits s cur call.a1 env := by
    intro env
    rw [Awaits, Awaits, saved_lookup, (saved_ids s c cur tf env).2.2.2.1]
  have hm : mappedAt (saved c cur tf s) cur call.a3 = mappedAt s cur call.a3 := by
    rw [mappedAt, mappedAt, (saved_alike tf).target]
  constructor
  · rintro ⟨hno, ⟨env, he⟩, hsrc, hun, hst⟩
    exact ⟨hno, ⟨env, (haw env).mp he⟩, hsrc, hm ▸ hun, hst⟩
  · rintro ⟨hno, ⟨env, he⟩, hsrc, hun, hst⟩
    exact ⟨hno, ⟨env, (haw env).mpr he⟩, hsrc, hm.trans hun, hst⟩

/-- What holds when a trap from user mode is dispatched. -/
theorem Inv.saved {tf : Trapframe} (h : Inv T s) (hs : TrapSafe T s c tf) (hu : InUser s c cur) :
    Mid T c ∅ (saved c cur tf s) ∧ (saved c cur tf s).curenv c = some cur ∧
      ¬ Elsewhere (saved c cur tf s) c cur ∧
      ((saved c cur tf s).envs cur).envPgdir = some ((saved c cur tf s).cr3 c) ∧
      ((saved c cur tf s).envs cur).envTf = tf ∧
      ((saved c cur tf s).envs cur).envStatus ≠ .free := by
  obtain ⟨x, hx, hd⟩ := (h.cpus c).running hu.mode
  obtain rfl := Option.some.inj (hu.current.symm.trans hx)
  obtain ⟨Le, hLe⟩ := h.core.envs
  have hlive : (s.envs cur).envStatus ≠ .free := fun hf => by
    rw [(hLe.dir cur).mpr hf] at hd
    cases hd
  refine ⟨((h.mid c).setCpu _).setEnv rfl rfl Iff.rfl, (saved_curenv tf c).trans hu.current,
    fun hE => (hs cur hu.mode hu.current).1 ((elsewhere_saved tf cur).mp hE), ?_, ?_, ?_⟩
  · simpa [Jos.saved, KState.setEnv, KState.setCpu] using hd
  · simp [Jos.saved, KState.setEnv]
  · rw [(saved_ids s c cur tf cur).1]
    exact hlive

/-- A trap panics only in the cases listed. -/
theorem trap_noPanic {inp : Input} {tf : Trapframe} (h : Inv T s) (ha : TrapAllowed s c tf)
    (hcu : T ∨ Current s c (.trap inp tf)) (hs : TrapSafe T s c tf) (hn : ¬ Fatal s c (.trap inp tf)) :
    wp (trap c inp tf) Q NoPanic s := by
  have hent : Mid T c ∅ (s.setCpu c { s.cpus c with cpuStatus := .started }) := (h.mid c).setCpu _
  rcases ha with ⟨hm, hcs⟩ | ⟨hm, hcs, hirq⟩
  · obtain ⟨cur, hcur, hd⟩ := (h.cpus c).running hm
    have hk : CallersOk s c inp tf := by
      by_contra hx
      exact hn (.callers hm hx)
    by_cases hdy : (s.envs cur).envStatus = .dying
    · -- marked while it ran: it is freed, whatever it wanted
      have hcur' : (s.setCpu c { s.cpus c with cpuStatus := .started }).curenv c = some cur :=
        curenv_started hcur
      have hno : ¬ Elsewhere (s.setCpu c { s.cpus c with cpuStatus := .started }) c cur := by
        rintro ⟨k, hk, hku, hkc⟩
        refine (hs cur hm hcur).1 ⟨k, hk, ?_, ?_⟩
        · simpa [KState.setCpu, hk] using hku
        · simpa [KState.curenv, KState.setCpu, hk] using hkc
      obtain ⟨t, hrun, ht, -⟩ := hent.envFree (e := cur) hd hno
      unfold trap
      simp only [wp_bind, wp_modify, wp_ite]
      refine ⟨fun _ => ?_, fun hx => absurd (cs_user hcs) hx⟩
      rw [wp_ok (getCurenv_run hcur'), wp_ok (callers_run hk)]
      simp only [wp_get]
      refine ⟨fun _ => ?_, fun hx => absurd hdy hx⟩
      rw [wp_ok hrun]
      exact schedYield_noPanic (ht.setCpu _).core
    · have hu : InUser s c cur := ⟨hm, hcur, hdy⟩
      obtain ⟨hmid, hc', hno, hd', htf, hl⟩ := h.saved hs hu
      have hcall := (hs cur hm hcur).2 hdy
      have hunset : tf.tfTrapno = tSyscall →
          ¬ FollowsUnset (Jos.saved c cur tf s) cur (Call.ofTf tf) inp := fun hsys hf =>
        hn (.unset hu hsys (followsUnset_saved.mp hf))
      have hst : NoStale (Jos.saved c cur tf s) c inp :=
        (NoStale.of_safe (h.cpus c) hm hcu).congr rfl rfl rfl
      rw [wp_of_eq (trap_user hcs hcur hk hdy), wp_bind]
      refine ((trapDispatch_noPanic hmid hst hc' hno hd' hcs htf hl hcall hunset).and
        (trapDispatch_mid (Q := fun _ t => Mid T c ∅ t) hmid hst hc' hno hl hd' hcall
          fun _ ht => ht)).mono (fun _ t ht => trapReturn_noPanic ht.2.core) fun _ _ hx => hx.1
  · have ht : tf.tfTrapno = irqTimer := by
      by_contra hx
      exact hn (.unexpected hm hx)
    have h3 : ¬ tf.tfCs &&& 3 = 3 := by rw [hcs]; decide
    have h1 : ¬ irqTimer = tPgflt := by decide
    have h2 : ¬ irqTimer = tBrkpt := by decide
    have h4 : ¬ irqTimer = tSyscall := by decide
    unfold trap trapDispatch
    rw [wp_bind, wp_modify, if_neg h3, ht, if_neg h1, if_neg h2, if_neg h4, if_pos rfl, wp_bind]
    exact schedYield_noPanic hent.core

/-- `trap_dispatch` knows no interrupt but the timer's. -/
theorem trap_unexpected {inp : Input} {tf : Trapframe} (ha : TrapAllowed s c tf)
    (hm : (s.cpus c).mode = .halted) (hno : tf.tfTrapno ≠ irqTimer) :
    ∃ t, trap c inp tf s = .error .panic t := by
  have hk : tf.tfCs = gdKt ∧ tf.tfTrapno ∈ irqVectors := by
    rcases ha with ⟨hu, -⟩ | ⟨-, hk⟩
    · rw [hm] at hu
      cases hu
    · exact hk
  obtain ⟨h1, h2, h4⟩ := ne_of_irq hk.2
  have h3 : ¬ tf.tfCs &&& 3 = 3 := by
    rw [hk.1]
    decide
  refine ⟨s.setCpu c { s.cpus c with cpuStatus := .started }, ?_⟩
  simp only [trap, trapDispatch, run_bind, run_modify, if_neg h3, if_neg h1, if_neg h2, if_neg h4,
    if_neg hno, if_pos hk.1, run_throw]

theorem trap_unset {inp : Input} {tf : Trapframe} (h : Inv T s) (ha : TrapAllowed s c tf)
    (hs : TrapSafe T s c tf) (hu : InUser s c cur) (hsys : tf.tfTrapno = tSyscall)
    (hf : FollowsUnset s cur (Call.ofTf tf) inp) : ∃ t, trap c inp tf s = .error .panic t := by
  obtain ⟨hmid, hc', -, -, -, hl⟩ := h.saved hs hu
  have hcs : tf.tfCs = gdUt ||| 3 := cs_of_allowed ha hu.mode
  have hf' : FollowsUnset (Jos.saved c cur tf s) cur (Call.ofTf tf) inp :=
    followsUnset_saved.mpr hf
  have hrun : sysIpcTrySend c inp tf.tfRegs.regEdx tf.tfRegs.regEcx tf.tfRegs.regEbx
      tf.tfRegs.regEdi (Jos.saved c cur tf s) = .error .panic (Jos.saved c cur tf s) :=
    hf'.panics hmid.core hc' hl
  have hno : tf.tfRegs.regEax.toNat = 11 := hf.no
  have h1 : ¬ tf.tfTrapno = tPgflt := by
    rw [hsys]
    decide
  have h2 : ¬ tf.tfTrapno = tBrkpt := by
    rw [hsys]
    decide
  by_cases hk : CallersOk s c inp tf
  case neg => exact ⟨_, trap_faults hcs hu.current hk⟩
  refine ⟨Jos.saved c cur tf s, ?_⟩
  rw [trap_user hcs hu.current hk hu.live]
  simp only [trapDispatch, if_neg h1, if_neg h2, if_pos hsys, run_bind, getCurenv_run hc', syscall,
    hno, hrun]

end

/-! ### Printing -/

/-- Printing returns exactly if the string is printable. -/
theorem cputs_returns_iff {view : View} {a len : Word} :
    (∃ out, Kern.cputs view a len = .ok out) ↔ Printable view a len := by
  rcases eq_or_ne a 0 with rfl | ha
  · -- the text for a null pointer is always printed
    have htext := chars_eq view 0 (2 ^ 32) len.toInt 0
      (isString_text view (by decide : ∀ c ∈ str "(null)", c ≠ 0)) (by decide)
    exact iff_of_true ((cputs_ok_iff rfl).mpr ⟨_, htext⟩) (.inl rfl)
  · rw [cputs_ok_iff (vaString_word ha []), chars_returns, Printable, or_iff_right ha]

section

variable {c : CpuIdx} {s : KState} {ev : Event}

/-- What user code can store to is managed memory. -/
theorem Inv.store {T : Prop} (h : Inv T s) {va : Word} {b : Byte} {via : Option Nat}
    (hcu : T ∨ Current s c (.store va b via)) (hp : Possible s c (.store va b via)) :
    ∃ t, Step s (c, .store va b via) t := by
  obtain ⟨hm, hacc⟩ := hp
  obtain ⟨f, hf⟩ := Option.ne_none_iff_exists'.mp hacc
  obtain ⟨e, -, htgt⟩ := storeFrame_target h hcu hm hf
  obtain ⟨L, hL⟩ := h.core.page
  have hM : Managed s f := hL.counted.target _ f htgt
  refine ⟨s.setFrame f ((s.mem f).setByte (pgoff va) b), ?_⟩
  simp only [Step, step, if_pos hm, hf, if_pos hM]

/-- Kernel code that neither returns nor panics leaves the kernel or enters the monitor. -/
theorem leaves_or_monitors {k : K Unit} (hk : kernelCode c ev = some k)
    (h : wp k (fun _ _ => False) NoPanic s) :
    (∃ t, k s = .error .leave t) ∨ EndsWith s c ev .monitor := by
  cases hx : k s with
  | ok a t => exact (h.ok hx).elim
  | error x t =>
    cases x with
    | leave => exact .inl ⟨t, rfl⟩
    | panic => exact absurd rfl (h.error hx)
    | monitor => exact .inr ⟨k, t, hk, hx⟩

/-- An event that is not fatal: the system takes a step, or the CPU enters the monitor. -/
theorem Inv.goes {T : Prop} (h : Inv T s) (hs : StepSafe T s (c, ev)) (hp : Possible s c ev)
    (hn : ¬ Fatal s c ev) : (∃ t, Step s (c, ev) t) ∨ EndsWith s c ev .monitor := by
  cases ev with
  | trap inp tf =>
    refine (leaves_or_monitors rfl (trap_noPanic h hp hs.1 hs.2 hn)).imp_left ?_
    rintro ⟨t, ht⟩
    refine ⟨t, ?_⟩
    simp only [Step, step, if_pos (show TrapAllowed s c tf from hp)]
    exact enter_eq_some.mpr ht
  | store va b via => exact .inl (h.store hs.1 hp)
  | start =>
    refine (leaves_or_monitors rfl (schedYield_noPanic h.core)).imp_left ?_
    rintro ⟨t, ht⟩
    refine ⟨t, ?_⟩
    simp only [Step, step, if_pos (show (s.cpus c).mode = .starting from hp)]
    exact enter_eq_some.mpr ht

theorem Inv.fails_iff {T : Prop} (h : Inv T s) (hs : StepSafe T s (c, ev)) (hp : Possible s c ev) :
    Fails s c ev ↔ Fatal s c ev := by
  constructor
  · rintro (⟨k, t, hk, hrun⟩ | ⟨hpr, hrun⟩)
    · by_contra hn
      cases ev with
      | trap inp tf =>
        cases hk
        exact (trap_noPanic (Q := fun _ _ => True) h hp hs.1 hs.2 hn).error hrun rfl
      | store va b via => cases hk
      | start =>
        obtain rfl : schedYield c = k := Option.some.inj hk
        have hwp : wp (schedYield c) (fun _ _ => True) NoPanic s := schedYield_noPanic h.core
        exact hwp.error hrun rfl
    · refine .unprintable hpr fun hok => ?_
      obtain ⟨out, ht⟩ := cputs_returns_iff.mpr hok
      rw [ht] at hrun
      cases hrun
  · rintro (⟨hm, hno⟩ | ⟨hm, hk⟩ | ⟨hu, hsys, hf⟩ | ⟨hpr, hbad⟩)
    · obtain ⟨t, ht⟩ := trap_unexpected hp hm hno
      exact .panics ⟨_, t, rfl, ht⟩
    · obtain ⟨cur, hcur, -⟩ := (h.cpus c).running hm
      exact .panics ⟨_, _, rfl, trap_faults (cs_of_allowed hp hm) hcur hk⟩
    · obtain ⟨t, ht⟩ := trap_unset h hp hs.2 hu hsys hf
      exact .panics ⟨_, t, rfl, ht⟩
    · rename_i inp tf cur
      cases hrun : Kern.cputs (s.view c) (Call.ofTf tf).a1 (Call.ofTf tf).a2 with
      | ok out => exact absurd (cputs_returns_iff.mp ⟨out, hrun⟩) hbad
      | error x => exact .prints hpr hrun

end

/-- In every careful run, and for every event that can come next and is careful too: the kernel
    fails exactly in the cases listed. In all others the system takes a step, or the CPU enters the
    monitor. -/
theorem kernel_fails_iff {p : BootParams} {ls : List (CpuIdx × Event)} {s : KState} {c : CpuIdx}
    {ev : Event} (h : BootRun (Careful True) p ls s) (hc : Careful True s (c, ev))
    (hp : Possible s c ev) :
    (Fails s c ev ↔ Fatal s c ev) ∧
      (¬ Fatal s c ev → (∃ t, Step s (c, ev) t) ∨ EndsWith s c ev .monitor) := by
  obtain ⟨hx, hinv⟩ := careful_run h
  have hs : StepSafe True s (c, ev) := hx.safe hc
  exact ⟨hinv.fails_iff hs hp, hinv.goes hs hp⟩

/-- The frame of a timer interrupt in user code with this `%ebp`. -/
def timerFrame (ebp : Word) : Trapframe :=
  { Trapframe.zero with
    tfTrapno := irqTimer
    tfCs := gdUt ||| 3
    tfRegs := { PushRegs.zero with regEbp := ebp } }

/-- The child runs on CPU 1. A timer interrupt there makes the kernel fail if user code has left an
    `%ebp` that cannot be followed, and only then. -/
theorem kernel_fails_iff_demo : ∃ ls s, BootRun (Careful True) oneProgram ls s ∧ InUser s 0 0 ∧
    InUser s 1 1 ∧ ∀ ebp, Possible s 1 (.trap .plain (timerFrame ebp)) ∧
      (Fails s 1 (.trap .plain (timerFrame ebp)) ↔ ¬ CallersOk s 1 .plain (timerFrame ebp)) ∧
      (ebp < ulim → (∃ t, Step s (1, .trap .plain (timerFrame ebp)) t) ∨
        EndsWith s 1 (.trap .plain (timerFrame ebp)) .monitor) := by
  obtain ⟨ls, s, hplain, h, hu, -⟩ := child_runs
  have hr := hplain.mono (Careful True) fun _ _ hc => hc.1
  refine ⟨ls, s, hr, h.user, hu, fun ebp => ?_⟩
  have hsys : (timerFrame ebp).tfTrapno ≠ tSyscall := by
    show irqTimer ≠ tSyscall
    decide
  have hp : Possible s 1 (.trap .plain (timerFrame ebp)) := Or.inl ⟨hu.mode, rfl⟩
  have hcare : Careful True s (1, .trap .plain (timerFrame ebp)) := by
    refine ⟨?_, .inl trivial, ?_⟩
    · rintro _ _ _ _ ⟨⟩ - hx
      exact absurd hx hsys
    · rintro _ _ _ ⟨⟩ - hx
      exact absurd hx hsys
  have hfatal : Fatal s 1 (.trap .plain (timerFrame ebp)) ↔
      ¬ CallersOk s 1 .plain (timerFrame ebp) := by
    refine ⟨?_, .callers hu.mode⟩
    rintro (⟨hm, -⟩ | ⟨-, hk⟩ | ⟨-, hx, -⟩ | ⟨hx, -⟩)
    · rw [hu.mode] at hm
      cases hm
    · exact hk
    · exact absurd hx hsys
    · exact absurd hx.no.1 hsys
  obtain ⟨hiff, hgo⟩ := kernel_fails_iff hr hcare hp
  exact ⟨hp, hiff.trans hfatal, fun hlt => hgo fun hf => hfatal.mp hf (.of_lt hlt)⟩

end Jos
