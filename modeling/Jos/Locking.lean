import Jos.Irq
import Jos.Layout
import Jos.Lib.SpinLock

/-!
  The big kernel lock, access by access.

  Here a kernel entry is no single step. `Pc` says where each CPU is: in user mode, halted, on its way
  into or out of the kernel, or in one of the functions that run under `kernel_lock`; each of those
  is one step, and `env_run` and `sched_halt` end at their call of `unlock_kernel`. CPUs move in
  any order. A run ends when a CPU panics, faults in the kernel, or enters the monitor. -/

namespace Jos

open Lib RefCount

/-- The calls of `lock_kernel`: in `trap`, for a CPU that was halted and for a trap from user mode,
    in `i386_init`, and in `mp_main`. -/
inductive LockCall where
  | woken (inp : Input) (tf : Trapframe)
  | trapped (inp : Input) (tf : Trapframe)
  | booting
  | apReady

/-- What a CPU does next. -/
inductive Pc where
  | off -- waiting for its start-up interrupt
  | user
  | halted
  | entry (inp : Input) (tf : Trapframe) -- `trap`, at the exchange of `cpu_status`
  | entered (inp : Input) (tf : Trapframe) -- `trap`, at the test of `tf_cs`
  | trapped (inp : Input) (tf : Trapframe) -- `trap`, past `lock_kernel`
  | dispatch (inp : Input) (tf : Trapframe) -- `trap_dispatch`
  | returned -- the end of `trap`
  | yielding -- `sched_yield`
  | bootAps (l : List CpuIdx) -- the loop of `boot_aps`
  | waiting (a : CpuIdx) (l : List CpuIdx) -- its inner loop, until `a` is up
  | envCreates (l : List UserImage)
  | apMain -- `mp_main`
  | locking (a : Acquire) (call : LockCall)
  | unlocking (r : Release) (halt : Bool)

/-- All CPUs, their lock, and the kernel's data. -/
structure Smp where
  kern : KState
  lock : Spin CpuIdx
  pc : CpuIdx → Pc

/-- An exchange that took the lock or gave it back, or any other step. -/
inductive Note where | took | gave | other
  deriving DecidableEq

/-- Where a CPU goes on once it has the lock. -/
def LockCall.pc (p : BootParams) : LockCall → Pc
  | .woken inp tf => .entered inp tf
  | .trapped inp tf => .trapped inp tf
  | .booting => .bootAps ((List.finRange 8).filter fun c => c.val < p.ncpu ∧ c ≠ p.bsp)
  | .apReady => .yielding

/-- Whether `get_caller_pcs` can follow the frame pointers. Only in a trap from user mode do they lead
    out of the kernel: a CPU that starts, or that was halted, has 0 in `%ebp`. -/
def LockCall.readable (k : KState) (c : CpuIdx) : LockCall → Bool
  | .trapped inp tf => decide (CallersOk k c inp tf)
  | _ => true

def Smp.goto (m : Smp) (c : CpuIdx) (pc : Pc) : Smp := { m with pc := Function.update m.pc c pc }

def Smp.withKern (m : Smp) (k : KState) : Smp := { m with kern := k }

/-- Run a kernel function that may end in `env_run` or `sched_halt`, at `unlock_kernel`. -/
def Smp.call (m : Smp) (c : CpuIdx) (x : K Unit) (next : Pc) : Option (Note × Smp) :=
  match x m.kern with
  | .ok _ k => some (.other, (m.withKern k).goto c next)
  | .error .leave k =>
    some (.other, (m.withKern k).goto c (.unlocking .locked (decide ((k.cpus c).mode = .halted))))
  | .error _ _ => none

/-- The garbage collection of a zombie in `trap`, up to its call of `sched_yield`. -/
def collect (c : CpuIdx) (cur : EnvIdx) : K Unit := do
  envFree c cur
  modify fun s => s.setCurenv c none

/-- The next step of a CPU in the kernel. -/
def kernelStep (p : BootParams) (c : CpuIdx) (m : Smp) : Option (Note × Smp) :=
  match m.pc c with
  | .off | .user | .halted => none
  | .entry inp tf =>
    let m' := m.withKern (started c m.kern)
    if (m.kern.cpus c).cpuStatus = .halted then
      some (.other, m'.goto c (.locking .locked (.woken inp tf)))
    else some (.other, m'.goto c (.entered inp tf))
  | .entered inp tf =>
    if tf.tfCs &&& 3 = 3 then
      match m.kern.curenv c with
      | none => none
      | some _ => some (.other, m.goto c (.locking .locked (.trapped inp tf)))
    else some (.other, m.goto c (.dispatch inp tf))
  | .trapped inp tf =>
    match m.kern.curenv c with
    | none => none
    | some cur =>
      if (m.kern.envs cur).envStatus = .dying then m.call c (collect c cur) .yielding
      else
        let k := m.kern.setEnv cur { m.kern.envs cur with envTf := tf }
        some (.other, (m.withKern k).goto c (.dispatch inp tf))
  | .dispatch inp tf => m.call c (trapDispatch c inp tf) .returned
  | .returned => m.call c (trapReturn c) .returned
  | .yielding => m.call c (schedYield c) .yielding
  | .bootAps [] => some (.other, m.goto c (.envCreates p.images))
  | .bootAps (a :: l) =>
    match m.pc a with
    | .off => some (.other, (m.goto a .apMain).goto c (.waiting a l))
    | _ => none
  | .waiting a l =>
    if (m.kern.cpus a).cpuStatus = .started then some (.other, m.goto c (.bootAps l))
    else some (.other, m)
  | .envCreates [] => some (.other, m.goto c .yielding)
  | .envCreates (b :: l) => m.call c (envCreate c b) (.envCreates l)
  | .apMain => m.call c (startAp p c) (.locking .locked .apReady)
  | .locking a call =>
    match a.run c (call.readable m.kern c) m.lock with
    | (.next a', l) =>
      some (if a = .spin ∧ a' = .record then .took else .other,
        { m with lock := l }.goto c (.locking a' call))
    | (.done, l) => some (.other, { m with lock := l }.goto c (call.pc p))
    | (.panic, _) | (.fault, _) => none
  | .unlocking r halt =>
    match r.run c m.lock with
    | (.next r', l) => some (.other, { m with lock := l }.goto c (.unlocking r' halt))
    | (.done, l) => some (.gave, { m with lock := l }.goto c (if halt then .halted else .user))
    | (.panic, _) | (.fault, _) => none

/-- What happens to a CPU outside the kernel: user code stores a byte or traps, and an external
    interrupt wakes a halted CPU. -/
inductive UserStep (c : CpuIdx) (m : Smp) : Smp → Prop
  | store {va : Word} {b : Byte} {via : Option Nat} {k : KState} : m.pc c = .user →
      Step m.kern (c, .store va b via) k → UserStep c m (m.withKern k)
  | trap {inp : Input} {tf : Trapframe} : m.pc c = .user → tf.tfCs = gdUt ||| 3 →
      UserStep c m (m.goto c (.entry inp tf))
  | wake {inp : Input} {tf : Trapframe} : m.pc c = .halted → tf.tfCs = gdKt →
      tf.tfTrapno ∈ irqVectors → UserStep c m (m.goto c (.entry inp tf))

/-- One step of one CPU. -/
inductive SmpStep (p : BootParams) (m : Smp) : CpuIdx × Note → Smp → Prop
  | kernel {c : CpuIdx} {n : Note} {m' : Smp} : kernelStep p c m = some (n, m') →
      SmpStep p m (c, n) m'
  | user {c : CpuIdx} {m' : Smp} : UserStep c m m' → SmpStep p m (c, .other) m'

/-- `i386_init` before it takes the lock. -/
def i386Early (p : BootParams) : K Unit := do
  memInit p
  envInit
  modify fun s => s.setCpu p.bsp { s.cpus p.bsp with cpuStatus := .started }
  lapicInit p

/-- The boot processor is about to take the lock, and the others are off. -/
structure SmpStart (p : BootParams) (m : Smp) : Prop where
  kern : i386Early p (startState p) = .ok () m.kern
  lock : m.lock = ⟨false, none⟩
  pc : m.pc = Function.update (fun _ => .off) p.bsp (.locking .locked .booting)

/-! ### The invariant -/

/-- What a CPU does with the lock. In `trap`, a CPU holds it at the test of `tf_cs` if it was
    halted. -/
def Pc.role : Pc → Role
  | .off | .user | .halted | .entry _ _ | .apMain => .away
  | .entered _ tf => if tf.tfCs &&& 3 = 3 then .away else .holding
  | .trapped _ _ | .dispatch _ _ | .returned | .yielding | .bootAps _ | .waiting _ _
  | .envCreates _ => .holding
  | .locking a _ => .acquiring a
  | .unlocking r _ => .releasing r

/-- A CPU's `cpu_status` says that it is halted from its mark in `sched_halt` up to the exchange in
    `trap`. -/
def Pc.Sound (st : CpuStatus) : Pc → Prop
  | .off | .apMain => True
  | .halted => st = .halted
  | .unlocking _ halt => st = .halted ↔ halt = true
  | .entry _ tf => st = .halted ↔ ¬ tf.tfCs &&& 3 = 3
  | .locking _ (.woken _ tf) => st ≠ .halted ∧ ¬ tf.tfCs &&& 3 = 3
  | _ => st ≠ .halted

structure LockInv (m : Smp) : Prop where
  spin : SpinInv m.lock fun c => (m.pc c).role
  sound : ∀ c, (m.pc c).Sound (m.kern.cpus c).cpuStatus

/-! ### What kernel code does to `cpu_status` -/

/-- No CPU's status differs. -/
def SameStatus (s t : KState) : Prop := ∀ k, (t.cpus k).cpuStatus = (s.cpus k).cpuStatus

/-- `env_run` leaves every status alone; `sched_halt` marks the CPU. -/
structure LeftBy (c : CpuIdx) (s t : KState) : Prop where
  others : ∀ k, k ≠ c → (t.cpus k).cpuStatus = (s.cpus k).cpuStatus
  halted : (t.cpus c).mode = .halted → (t.cpus c).cpuStatus = .halted
  runs : (t.cpus c).mode ≠ .halted → (t.cpus c).cpuStatus = (s.cpus c).cpuStatus

section

variable {c : CpuIdx} {s t : KState} {R : KState → Prop}

theorem SameStatus.refl (s : KState) : SameStatus s s := fun _ => rfl

theorem SameStatus.trans {u : KState} (h : SameStatus s t) (h' : SameStatus t u) : SameStatus s u :=
  fun k => (h' k).trans (h k)

theorem SameStatus.of_cpus (h : t.cpus = s.cpus) : SameStatus s t := fun k => by rw [h]

theorem SameStatus.setCurenv (e : Option EnvIdx) : SameStatus s (s.setCurenv c e) := by
  intro k
  rcases eq_or_ne k c with rfl | hk
  · simp [KState.setCurenv, KState.setCpu]
  · simp [KState.setCurenv, KState.setCpu, hk]

theorem LeftBy.of_same {u : KState} (h : SameStatus s t) (h' : LeftBy c t u) : LeftBy c s u :=
  ⟨fun k hk => (h'.others k hk).trans (h k), h'.halted, fun hm => (h'.runs hm).trans (h c)⟩

theorem LeftBy.of_cpus {u : KState} (h : LeftBy c t u) (hc : t.cpus = s.cpus) : LeftBy c s u :=
  .of_same (.of_cpus hc) h

theorem Runs.leftBy {e : EnvIdx} (h : Runs c e s t) : LeftBy c s t := by
  obtain ⟨pd, -, rfl⟩ := h
  refine ⟨fun k hk => ?_, fun hm => ?_, fun _ => ?_⟩
  · rw [resume_cpus, Function.update_of_ne hk, preempt_cpus]
  · rw [resume_cpus, Function.update_self] at hm
    cases hm
  · rw [resume_cpus, Function.update_self, preempt_cpus]

theorem Yields.leftBy (h : Yields c s t) : LeftBy c s t := by
  cases h with
  | pick _ hr => exact hr.leftBy
  | stay _ _ _ hr => exact hr.leftBy
  | halt _ _ _ =>
    refine ⟨fun k hk => ?_, fun _ => ?_, fun hm => ?_⟩
    · rw [halted_cpus, Function.update_of_ne hk]
    · rw [halted_cpus, Function.update_self]
    · rw [halted_cpus, Function.update_self] at hm
      exact absurd rfl hm

theorem Returns.leftBy (h : Returns c s t) : LeftBy c s t := by
  cases h with
  | stay _ _ hr => exact hr.leftBy
  | yield _ hy => exact hy.leftBy

/-- The current environment is gone, and another one is chosen. -/
theorem Yields.leftBy_of_same {u : KState} (h : SameStatus s u)
    (hy : Yields c (u.setCurenv c none) t) : LeftBy c s t :=
  .of_same (h.trans (.setCurenv none)) hy.leftBy

theorem CallLeft.leftBy {cur : EnvIdx} {call : Call} (h : CallLeft s c cur call t) :
    LeftBy c s t := by
  cases h with
  | died _ hu hy => exact Yields.leftBy_of_same (.of_cpus hu.cpus) hy
  | yielded _ hy => exact hy.leftBy
  | received _ hy => exact hy.leftBy.of_cpus rfl

/-- Code that begins with `curenv` panics if there is none. -/
theorem getCurenv_bind {α : Type} {f : EnvIdx → K α} {Q : α → KState → Prop}
    (h : ∀ cur, s.curenv c = some cur → wp (f cur) Q (Leaves R) s) :
    wp (getCurenv c >>= f) Q (Leaves R) s := by
  cases hc : s.curenv c with
  | none =>
    unfold getCurenv
    simp [wp_bind, hc]
  | some cur =>
    rw [wp_bind, wp_ok (getCurenv_run hc)]
    exact h cur hc

theorem envDestroy_status {e : EnvIdx} :
    wp (envDestroy c e) (fun _ t => SameStatus s t) (Leaves (LeftBy c s)) s := by
  refine envDestroy_effect.mono (fun _ t ht => ?_) fun x t hR hx => ?_
  · rcases ht with ⟨-, ⟨-, rfl⟩ | ⟨-, ht⟩⟩
    · exact .refl s
    · exact .of_cpus ht.cpus
  · obtain ⟨-, u, hu, hy⟩ := hR hx
    exact Yields.leftBy_of_same (.of_cpus hu.cpus) hy

theorem pageFaultHandler_status {inp : Input} {tf : Trapframe} :
    wp (pageFaultHandler c inp tf) (fun _ t => SameStatus s t) (Leaves (LeftBy c s)) s := by
  unfold pageFaultHandler
  refine wp_ite.mpr ⟨fun _ => by simp [wp_bind], fun _ => getCurenv_bind fun cur _ => ?_⟩
  rw [wp_bind, wp_get]
  refine wp_ite.mpr ⟨fun _ => ?_, fun _ => envDestroy_status⟩
  -- whatever the check did, the rest pushes the frame and runs the environment
  have rest : ∀ u, SameStatus s u → wp (do
      storeBytesCached c inp (utfAddr tf.tfEsp) (wordBytes (utrapframe inp.cr2 tf))
      modify fun s => s.setEnv cur { s.envs cur with
        envTf := { (s.envs cur).envTf with
          tfEip := (s.envs cur).envPgfaultUpcall, tfEsp := utfAddr tf.tfEsp } }
      let r ← envRun c cur
      (fun _ => envDestroy c cur) r : K Unit) (fun _ t => SameStatus s t) (Leaves (LeftBy c s)) u := by
    intro u hu
    rw [wp_bind]
    refine storeBytesCached_pm.mono (fun _ v hv => ?_) fun _ _ hR => hR
    rw [wp_bind, wp_modify, wp_bind]
    refine envRun_wp fun w hw => .of_same (hu.trans (.of_cpus hv.cpus)) (t := v) ?_
    exact hw.leftBy.of_cpus rfl
  unfold userMemAssert
  rw [wp_bind, wp_bind]
  refine userMemCheck_wp.mono (fun r t ht => ?_) fun x t hR hx => hR hx
  obtain ⟨a, rfl⟩ := ht
  cases r with
  | error err =>
    exact (envDestroy_status (s := { s with userMemCheckAddr := a })).mono
      (fun _ u hu => rest u hu) fun x u hR hx => (hR hx).of_cpus rfl
  | ok _ => exact (wp_pure _).mpr (rest _ (.refl s))

theorem trapDispatch_status {inp : Input} {tf : Trapframe} :
    wp (trapDispatch c inp tf) (fun _ t => SameStatus s t) (Leaves (LeftBy c s)) s := by
  unfold trapDispatch
  refine wp_ite.mpr ⟨fun _ => pageFaultHandler_status, fun _ => ?_⟩
  refine wp_ite.mpr ⟨fun _ => by simp, fun _ => ?_⟩
  refine wp_ite.mpr ⟨fun _ => getCurenv_bind fun cur hc => ?_, fun _ => ?_⟩
  · rw [wp_bind]
    refine (syscall_effect (Call.ofTf tf) rfl hc).mono (fun w u hu => ?_) fun x t hR hx =>
      (hR hx).leftBy
    exact (wp_modify _).mpr (.of_cpus hu.cpus)
  refine wp_ite.mpr ⟨fun _ => schedYield_wp fun t hy => hy.leftBy, fun _ => ?_⟩
  exact wp_ite.mpr ⟨fun _ => by simp, fun _ => getCurenv_bind fun cur _ => envDestroy_status⟩

theorem collect_status {cur : EnvIdx} :
    wp (collect c cur) (fun _ t => SameStatus s t) (Leaves (LeftBy c s)) s := by
  unfold collect
  rw [wp_bind]
  refine envFree_effect.mono (fun _ t ht => ?_) fun _ _ hR => hR
  exact (wp_modify _).mpr (SameStatus.trans (.of_cpus ht.cpus) (.setCurenv none))

/-! Boot. -/

theorem regionAllocLoop_pm {e : EnvIdx} {last : Word} : ∀ {n : Nat} {va : Word} {s : KState},
    wp (regionAllocLoop c e last n va) (fun _ t => PmOnly s t) (Leaves R) s
  | 0, _, _ => pm_pure _
  | n + 1, va, s => by
    unfold regionAllocLoop
    refine wp_ite.mpr ⟨fun _ => wp.pm pageAlloc_pm ?_, fun _ => pm_pure _⟩
    rintro (_ | f) t -
    · simp
    refine wp.pm getPgdir_pm fun d u _ => wp.pm pageInsert_pm ?_
    rintro (err | x) v -
    · simp
    · exact regionAllocLoop_pm

theorem loadSegment_pm {e : EnvIdx} {file : Nat → Byte} {ph : Proghdr} :
    wp (loadSegment c e file ph) (fun _ t => PmOnly s t) (Leaves R) s := by
  unfold loadSegment regionAlloc
  refine wp_ite.mpr ⟨fun _ => wp_ite.mpr ⟨fun _ => by simp [wp_bind], fun _ => ?_⟩,
    fun _ => pm_pure _⟩
  exact wp.pm regionAllocLoop_pm fun _ _ _ => wp.pm storeBytes_pm fun _ _ _ => storeBytes_pm

theorem envCreate_status {b : UserImage} :
    wp (envCreate c b) (fun _ t => SameStatus s t) (Leaves (LeftBy c s)) s := by
  unfold envCreate
  rw [wp_bind]
  refine envAlloc_effect.mono (fun r t ht => ?_) fun _ _ hR => hR
  cases r with
  | error err => simp
  | ok e =>
    obtain ⟨-, q, ht⟩ := ht
    have hcpu : t.cpus = s.cpus := ht.cpus
    unfold loadIcode
    refine wp_ite.mpr ⟨fun _ => by simp [wp_bind], fun _ => wp_ite.mpr ⟨fun _ => by simp [wp_bind],
      fun _ => ?_⟩⟩
    rw [wp_bind, wp_modify, wp_bind]
    refine getPgdir_pm.mono (fun d u hu => ?_) fun _ _ hR => hR
    rw [wp_bind, wp_modify, wp_bind]
    refine (forM_pm fun _ _ => loadSegment_pm).mono (fun _ v hv => ?_) fun _ _ hR => hR
    unfold regionAlloc
    refine regionAllocLoop_pm.mono (fun _ w hw => .of_cpus ?_) fun _ _ hR => hR
    rw [hw.cpus, hv.cpus]
    exact hu.cpus.trans hcpu

theorem bootMapLoop_pm {d : Nat} {perm : Word} : ∀ {n : Nat} {va pa : Word} {s : KState},
    wp (bootMapLoop d perm n va pa) (fun _ t => PmOnly s t) (Leaves R) s
  | 0, _, _, _ => pm_pure _
  | n + 1, va, pa, s => by
    unfold bootMapLoop
    refine wp.pm pgdirWalk_pm ?_
    rintro (_ | pte) t -
    · simp
    · exact wp.pm ((wp_modify _).mpr (.poke t pte.1 pte.2 _)) fun _ _ _ => bootMapLoop_pm

theorem lapicInit_status {p : BootParams} :
    wp (lapicInit p) (fun _ t => SameStatus s t) (Leaves R) s := by
  unfold lapicInit mmioMapRegion bootMapRegion
  refine wp_ite.mpr ⟨fun _ => ?_, fun _ => (wp_pure _).mpr (.refl s)⟩
  rw [wp_bind, wp_bind, wp_get]
  refine wp_ite.mpr ⟨fun _ => by simp [wp_bind], fun _ => ?_⟩
  rw [wp_bind]
  refine bootMapLoop_pm.mono (fun _ t ht => ?_) fun _ _ hR => hR
  simp only [wp_bind, wp_modify, wp_pure]
  exact .of_cpus ht.cpus

theorem startAp_status {p : BootParams} : wp (startAp p c)
    (fun _ t => (∀ k, k ≠ c → (t.cpus k).cpuStatus = (s.cpus k).cpuStatus) ∧
      (t.cpus c).cpuStatus = .started) (Leaves fun _ => False) s := by
  unfold startAp
  rw [wp_bind, wp_modify, wp_bind]
  refine lapicInit_status.mono (fun _ t ht => ?_) fun _ _ hR => hR
  rw [wp_modify]
  refine ⟨fun k hk => ?_, by simp [KState.setCpu]⟩
  have hsame : (t.cpus k).cpuStatus = (s.cpus k).cpuStatus := ht k
  simpa [KState.setCpu, hk] using hsame

end

/-! ### Every step keeps the invariant -/

/-- Whether a CPU owns the lock. -/
def Smp.owns (m : Smp) (c : CpuIdx) : Bool := (m.pc c).role.owns

/-- A step keeps the invariant, and its note says whether its CPU took the lock or gave it back. -/
structure StepOk (m : Smp) (c : CpuIdx) (n : Note) (m' : Smp) : Prop where
  inv : LockInv m'
  others : ∀ d, d ≠ c → m'.owns d = m.owns d
  took : n = .took → m.owns c = false ∧ m'.owns c = true
  gave : n = .gave → m.owns c = true ∧ m'.owns c = false
  other : n = .other → m'.owns c = m.owns c

section

variable {p : BootParams} {m m' : Smp} {c : CpuIdx} {n : Note}

theorem roles_goto (pc : Pc) : (fun d => ((m.goto c pc).pc d).role)
    = Function.update (fun d => (m.pc d).role) c pc.role := by
  funext d
  rcases eq_or_ne d c with rfl | hd
  · simp [Smp.goto]
  · simp [Smp.goto, hd]

theorem owns_goto_self (pc : Pc) : (m.goto c pc).owns c = pc.role.owns := by
  simp [Smp.owns, Smp.goto]

theorem owns_goto_of_ne {d : CpuIdx} (hd : d ≠ c) (pc : Pc) : (m.goto c pc).owns d = m.owns d := by
  simp [Smp.owns, Smp.goto, hd]

/-- A CPU moves on, in a state that may have a new lock and new kernel data. -/
theorem LockInv.goto (h : LockInv m) {k : KState} {l : Spin CpuIdx} {pc : Pc}
    (hl : SpinInv l (Function.update (fun d => (m.pc d).role) c pc.role))
    (hk : ∀ d, d ≠ c → (k.cpus d).cpuStatus = (m.kern.cpus d).cpuStatus)
    (hs : pc.Sound (k.cpus c).cpuStatus) : LockInv (Smp.goto ⟨k, l, m.pc⟩ c pc) := by
  refine ⟨?_, fun d => ?_⟩
  · rw [roles_goto]
    exact hl
  · rcases eq_or_ne d c with rfl | hd
    · simpa [Smp.goto] using hs
    · simpa [Smp.goto, hd, hk d hd] using h.sound d

/-- A step that neither takes the lock nor gives it back. -/
theorem StepOk.move (h : LockInv m) {k : KState} {pc : Pc}
    (ho : pc.role.owns = (m.pc c).role.owns) (hr : pc.role.recorded = (m.pc c).role.recorded)
    (hk : ∀ d, d ≠ c → (k.cpus d).cpuStatus = (m.kern.cpus d).cpuStatus)
    (hs : pc.Sound (k.cpus c).cpuStatus) : StepOk m c .other ((m.withKern k).goto c pc) := by
  refine ⟨h.goto (h.spin.update ho hr) hk hs, fun d hd => ?_, by simp, by simp, fun _ => ?_⟩
  · rw [owns_goto_of_ne hd]
    rfl
  · rw [owns_goto_self, ho]
    rfl

/-- A kernel function that runs under the lock. -/
theorem StepOk.call (h : LockInv m) {x : K Unit} {next : Pc} (hst : m.call c x next = some (n, m'))
    (hx : wp x (fun _ t => SameStatus m.kern t) (Leaves (LeftBy c m.kern)) m.kern)
    (hr : (m.pc c).role = .holding) (hs : (m.kern.cpus c).cpuStatus ≠ .halted)
    (hn : next.role = .holding) (hns : ∀ st, st ≠ .halted → next.Sound st) : StepOk m c n m' := by
  unfold Smp.call at hst
  split at hst
  · rename_i k hrun
    cases hst
    have hsame : SameStatus m.kern k := hx.ok hrun
    exact .move h (by rw [hn, hr]) (by rw [hn, hr]) (fun d _ => hsame d) (hns _ (by rwa [hsame c]))
  · rename_i k hrun
    cases hst
    have hleft : LeftBy c m.kern k := hx.error hrun rfl
    refine .move h (by rw [hr]; rfl) (by rw [hr]; rfl) hleft.others ⟨fun hh => ?_, fun hm => ?_⟩
    · by_contra hm
      refine hs ?_
      rw [← hleft.runs (by simpa using hm), hh]
    · exact hleft.halted (by simpa using hm)
  · cases hst

/-- An access of `spin_lock`. -/
theorem StepOk.acquire (h : LockInv m) {a : Acquire} {call : LockCall}
    (hpc : m.pc c = .locking a call) (hst : kernelStep p c m = some (n, m')) :
    StepOk m c n m' := by
  have hsound := h.sound c
  rw [hpc] at hsound
  have hrole : (m.pc c).role = .acquiring a := by
    rw [hpc]
    rfl
  obtain ⟨-, hspin⟩ := h.spin.acquire (c := c) (a := a) (call.readable m.kern c) hrole
  have stay : ∀ a' : Acquire, (a.run c (call.readable m.kern c) m.lock).1 = .next a' →
      LockInv (Smp.goto ⟨m.kern, (a.run c (call.readable m.kern c) m.lock).2, m.pc⟩ c
        (.locking a' call)) := by
    intro a' ha
    rw [ha] at hspin
    refine h.goto hspin (fun _ _ => rfl) ?_
    cases call <;> exact hsound
  have others : ∀ {l : Spin CpuIdx} {pc : Pc} (d : CpuIdx), d ≠ c →
      (Smp.goto ⟨m.kern, l, m.pc⟩ c pc).owns d = m.owns d := fun d hd => owns_goto_of_ne hd _
  have hown : m.owns c = (Role.acquiring a).owns := by
    unfold Smp.owns
    rw [hrole]
  simp only [kernelStep, hpc] at hst
  split at hst
  · rename_i a' l heq
    cases hst
    have hinv := stay a' (by rw [heq])
    rw [heq] at hinv
    refine ⟨hinv, others, ?_, ?_, ?_⟩
    · intro hn
      split at hn
      · rename_i ha
        obtain ⟨rfl, rfl⟩ := ha
        rw [hown, owns_goto_self]
        exact ⟨rfl, rfl⟩
      · cases hn
    · intro hn
      split at hn <;> cases hn
    · intro hn
      rw [hown, owns_goto_self]
      split at hn
      · cases hn
      · rename_i ha
        cases a <;> cases a' <;> simp_all [Acquire.run, Pc.role, Role.owns] <;> split at heq <;> simp_all
  · rename_i l heq
    cases hst
    have ha : a = .callers := by
      cases a <;> simp [Acquire.run] at heq ⊢ <;> split at heq <;> simp at heq
    subst ha
    rw [heq] at hspin
    have hpc' : (call.pc p).role = .holding := by
      cases call with
      | woken inp tf =>
        simp only [LockCall.pc, Pc.role]
        rw [if_neg hsound.2]
      | trapped inp tf => rfl
      | booting => rfl
      | apReady => rfl
    refine ⟨h.goto (by rw [hpc']; exact hspin) (fun _ _ => rfl) ?_, others, by simp, by simp, ?_⟩
    · cases call with
      | woken inp tf => exact hsound.1
      | trapped inp tf => exact hsound
      | booting => exact hsound
      | apReady => exact hsound
    · intro _
      rw [hown, owns_goto_self, hpc']
      rfl
  · cases hst
  · cases hst

/-- An access of `spin_unlock`. -/
theorem StepOk.release (h : LockInv m) {r : Release} {halt : Bool}
    (hpc : m.pc c = .unlocking r halt) (hst : kernelStep p c m = some (n, m')) :
    StepOk m c n m' := by
  have hsound := h.sound c
  rw [hpc] at hsound
  have hrole : (m.pc c).role = .releasing r := by
    rw [hpc]
    rfl
  obtain ⟨-, hspin⟩ := h.spin.release (c := c) (a := r) hrole
  have others : ∀ {l : Spin CpuIdx} {pc : Pc} (d : CpuIdx), d ≠ c →
      (Smp.goto ⟨m.kern, l, m.pc⟩ c pc).owns d = m.owns d := fun d hd => owns_goto_of_ne hd _
  have hown : m.owns c = true := by
    unfold Smp.owns
    rw [hrole]
    rfl
  simp only [kernelStep, hpc] at hst
  split at hst
  · rename_i r' l heq
    cases hst
    rw [heq] at hspin
    refine ⟨h.goto hspin (fun _ _ => rfl) hsound, others, by simp, by simp, fun _ => ?_⟩
    rw [hown, owns_goto_self]
    rfl
  · rename_i l heq
    cases hst
    rw [heq] at hspin
    refine ⟨h.goto (by cases halt <;> exact hspin) (fun _ _ => rfl) ?_, others, by simp,
      fun _ => ⟨hown, ?_⟩, by simp⟩
    · cases halt with
      | true => exact hsound.mpr rfl
      | false => exact fun hh => by cases hsound.mp hh
    · rw [owns_goto_self]
      cases halt <;> rfl
  · cases hst
  · cases hst

/-- The exchange of `cpu_status` and the test of `tf_cs` in `trap`. -/
theorem StepOk.trapEntry (h : LockInv m) {inp : Input} {tf : Trapframe}
    (hpc : m.pc c = .entry inp tf ∨ m.pc c = .entered inp tf)
    (hst : kernelStep p c m = some (n, m')) : StepOk m c n m' := by
  have hsound := h.sound c
  rcases hpc with hpc | hpc <;> rw [hpc] at hsound <;> simp only [kernelStep, hpc] at hst
  · have hothers : ∀ d, d ≠ c → ((started c m.kern).cpus d).cpuStatus
        = (m.kern.cpus d).cpuStatus := fun d hd => by simp [started, KState.setCpu, hd]
    have hself : ((started c m.kern).cpus c).cpuStatus = .started := by
      simp [started, KState.setCpu]
    split at hst
    · -- it was halted, and takes the lock again
      rename_i hh
      cases hst
      refine .move h (by rw [hpc]; rfl) (by rw [hpc]; rfl) hothers ⟨?_, hsound.mp hh⟩
      rw [hself]
      simp
    · -- it was running user code
      rename_i hh
      cases hst
      have hcs : tf.tfCs &&& 3 = 3 := by
        by_contra hcs
        exact hh (hsound.mpr hcs)
      have hr : (Pc.entered inp tf).role = .away := if_pos hcs
      refine .move h (by rw [hpc, hr]; rfl) (by rw [hpc, hr]; rfl) hothers ?_
      show _ ≠ _
      rw [hself]
      simp
  · split at hst
    · rename_i hcs
      have hr : (Pc.entered inp tf).role = .away := if_pos hcs
      split at hst
      · cases hst
      · cases hst
        exact .move h (k := m.kern) (by rw [hpc, hr]; rfl) (by rw [hpc, hr]; rfl) (fun _ _ => rfl)
          hsound
    · rename_i hcs
      have hr : (Pc.entered inp tf).role = .holding := if_neg hcs
      cases hst
      exact .move h (k := m.kern) (by rw [hpc, hr]; rfl) (by rw [hpc, hr]; rfl) (fun _ _ => rfl)
        hsound

/-- `boot_aps` starts a processor. -/
theorem StepOk.startap (h : LockInv m) {a : CpuIdx} {l : List CpuIdx}
    (hpc : m.pc c = .bootAps (a :: l)) (ha : m.pc a = .off) :
    StepOk m c .other ((m.goto a .apMain).goto c (.waiting a l)) := by
  have hac : a ≠ c := by
    rintro rfl
    rw [hpc] at ha
    cases ha
  have h1 : StepOk m a .other ((m.withKern m.kern).goto a .apMain) :=
    .move h (by rw [ha]; rfl) (by rw [ha]; rfl) (fun _ _ => rfl) trivial
  have hpc1 : ((m.withKern m.kern).goto a .apMain).pc c = .bootAps (a :: l) := by
    simp [Smp.goto, Smp.withKern, hac.symm, hpc]
  have hsound := h1.inv.sound c
  rw [hpc1] at hsound
  have h2 : StepOk ((m.withKern m.kern).goto a .apMain) c .other
      ((((m.withKern m.kern).goto a .apMain).withKern m.kern).goto c (.waiting a l)) :=
    .move h1.inv (by rw [hpc1]; rfl) (by rw [hpc1]; rfl) (fun _ _ => rfl) hsound
  refine ⟨h2.inv, fun d hd => ?_, by simp, by simp, fun _ => ?_⟩
  · rw [owns_goto_of_ne hd]
    rcases eq_or_ne d a with rfl | hda
    · rw [owns_goto_self]
      unfold Smp.owns
      rw [ha]
      rfl
    · rw [owns_goto_of_ne hda]
  · rw [owns_goto_self]
    unfold Smp.owns
    rw [hpc]
    rfl

/-- One step of the kernel, at every place in it. -/
theorem kernelStep_ok (h : LockInv m) (hst : kernelStep p c m = some (n, m')) :
    StepOk m c n m' := by
  have hsound := h.sound c
  cases hpc : m.pc c with
  | off => simp only [kernelStep, hpc] at hst; cases hst
  | user => simp only [kernelStep, hpc] at hst; cases hst
  | halted => simp only [kernelStep, hpc] at hst; cases hst
  | entry inp tf => exact .trapEntry h (Or.inl hpc) hst
  | entered inp tf => exact .trapEntry h (Or.inr hpc) hst
  | locking a call => exact .acquire h hpc hst
  | unlocking r halt => exact .release h hpc hst
  | trapped inp tf =>
    rw [hpc] at hsound
    simp only [kernelStep, hpc] at hst
    split at hst
    · cases hst
    · split at hst
      · exact .call h hst collect_status (by rw [hpc]; rfl) hsound rfl fun _ hs => hs
      · cases hst
        exact .move h (by rw [hpc]; rfl) (by rw [hpc]; rfl) (fun _ _ => rfl) hsound
  | dispatch inp tf =>
    rw [hpc] at hsound
    simp only [kernelStep, hpc] at hst
    exact .call h hst trapDispatch_status (by rw [hpc]; rfl) hsound rfl fun _ hs => hs
  | returned =>
    rw [hpc] at hsound
    simp only [kernelStep, hpc] at hst
    exact .call h hst (trapReturn_wp fun t ht => ht.leftBy) (by rw [hpc]; rfl) hsound rfl
      fun _ hs => hs
  | yielding =>
    rw [hpc] at hsound
    simp only [kernelStep, hpc] at hst
    exact .call h hst (schedYield_wp fun t hy => hy.leftBy) (by rw [hpc]; rfl) hsound rfl
      fun _ hs => hs
  | bootAps l =>
    rw [hpc] at hsound
    cases l with
    | nil =>
      simp only [kernelStep, hpc] at hst
      cases hst
      exact .move h (k := m.kern) (by rw [hpc]; rfl) (by rw [hpc]; rfl) (fun _ _ => rfl) hsound
    | cons a l =>
      simp only [kernelStep, hpc] at hst
      split at hst
      · rename_i ha
        cases hst
        exact .startap h hpc ha
      · cases hst
  | waiting a l =>
    rw [hpc] at hsound
    simp only [kernelStep, hpc] at hst
    split at hst
    · cases hst
      exact .move h (k := m.kern) (by rw [hpc]; rfl) (by rw [hpc]; rfl) (fun _ _ => rfl) hsound
    · cases hst
      exact ⟨h, fun _ _ => rfl, by simp, by simp, fun _ => rfl⟩
  | envCreates l =>
    rw [hpc] at hsound
    cases l with
    | nil =>
      simp only [kernelStep, hpc] at hst
      cases hst
      exact .move h (k := m.kern) (by rw [hpc]; rfl) (by rw [hpc]; rfl) (fun _ _ => rfl) hsound
    | cons b l =>
      simp only [kernelStep, hpc] at hst
      exact .call h hst envCreate_status (by rw [hpc]; rfl) hsound rfl fun _ hs => hs
  | apMain =>
    simp only [kernelStep, hpc] at hst
    unfold Smp.call at hst
    have hap := startAp_status (c := c) (s := m.kern) (p := p)
    split at hst
    · rename_i k hrun
      cases hst
      obtain ⟨hothers, hself⟩ := hap.ok hrun
      refine .move h (by rw [hpc]; rfl) (by rw [hpc]; rfl) hothers ?_
      show _ ≠ _
      rw [hself]
      simp
    · rename_i k hrun
      exact (hap.error hrun rfl).elim
    · cases hst

theorem userStep_ok (h : LockInv m) (hst : UserStep c m m') : StepOk m c .other m' := by
  have hsound := h.sound c
  cases hst with
  | @store va b via k hpc hstep =>
    have hcpu : k.cpus = m.kern.cpus := by
      cases step_effect hstep with
      | store _ hp => exact hp.cpus
    refine ⟨⟨h.spin, fun d => ?_⟩, fun _ _ => rfl, by simp, by simp, fun _ => rfl⟩
    show (m.pc d).Sound (k.cpus d).cpuStatus
    rw [hcpu]
    exact h.sound d
  | @trap inp tf hpc hcs =>
    rw [hpc] at hsound
    have h3 : tf.tfCs &&& 3 = 3 := by
      rw [hcs]
      decide
    refine .move h (k := m.kern) (by rw [hpc]; rfl) (by rw [hpc]; rfl) (fun _ _ => rfl) ?_
    exact ⟨fun hh => absurd hh hsound, fun hn => absurd h3 hn⟩
  | @wake inp tf hpc hcs hirq =>
    rw [hpc] at hsound
    have h3 : ¬ tf.tfCs &&& 3 = 3 := by
      rw [hcs]
      decide
    refine .move h (k := m.kern) (by rw [hpc]; rfl) (by rw [hpc]; rfl) (fun _ _ => rfl) ?_
    exact ⟨fun _ => h3, fun _ => hsound⟩

theorem smpStep_ok (h : LockInv m) (hst : SmpStep p m (c, n) m') : StepOk m c n m' := by
  cases hst with
  | kernel hk => exact kernelStep_ok h hk
  | user hu => exact userStep_ok h hu

end

/-! ### Runs -/

/-- How often a CPU took the lock, and how often it gave it back. -/
def taken (ls : List (CpuIdx × Note)) (c : CpuIdx) : Nat := ls.count (c, .took)
def given (ls : List (CpuIdx × Note)) (c : CpuIdx) : Nat := ls.count (c, .gave)

/-- It took the lock once more than it gave it back. -/
def Holds (ls : List (CpuIdx × Note)) (c : CpuIdx) : Prop := taken ls c = given ls c + 1

instance (ls : List (CpuIdx × Note)) (c : CpuIdx) : Decidable (Holds ls c) :=
  inferInstanceAs (Decidable (_ = _))

/-- Kernel code that runs between `lock_kernel` and `unlock_kernel`. -/
def Pc.UnderLock : Pc → Prop
  | .trapped _ _ | .dispatch _ _ | .returned | .yielding | .bootAps _ | .waiting _ _
  | .envCreates _ => True
  | .entered _ tf => ¬ tf.tfCs &&& 3 = 3
  | _ => False

/-- The next access is a check of `spin_lock` or `spin_unlock` that panics. -/
def CheckFails (m : Smp) (c : CpuIdx) : Prop :=
  (∃ a call, m.pc c = .locking a call ∧
      (a.run c (call.readable m.kern c) m.lock).1 = .panic) ∨
  (∃ r halt, m.pc c = .unlocking r halt ∧ (r.run c m.lock).1 = .panic)

/-- The discipline of `kernel_lock` in state `m`, after the steps `ls`. -/
structure Disciplined (ls : List (CpuIdx × Note)) (m : Smp) : Prop where
  balance : ∀ c, taken ls c = given ls c ∨ Holds ls c
  exclusive : ∀ c d, Holds ls c → Holds ls d → c = d
  kernel : ∀ c, (m.pc c).UnderLock → Holds ls c
  left : ∀ c, m.pc c = .user ∨ m.pc c = .halted → taken ls c = given ls c
  locks : ∀ c call, m.pc c = .locking .locked call → ¬ Holds ls c
  unlocks : ∀ c halt, m.pc c = .unlocking .locked halt → Holds ls c
  checks : ∀ c, ¬ CheckFails m c
  awake : ∀ c, m.pc c = .user → (m.kern.cpus c).cpuStatus ≠ .halted

section

variable {p : BootParams} {m m' : Smp} {c : CpuIdx} {ls : List (CpuIdx × Note)}

/-- A run keeps the invariant, and its notes account for who owns the lock. -/
theorem run_ok (h : Run (SmpStep p) m ls m') (hm : LockInv m) : LockInv m' ∧
    ∀ c, taken ls c + (m.owns c).toNat = given ls c + (m'.owns c).toNat := by
  induction h with
  | nil m => exact ⟨hm, fun c => by simp [taken, given]⟩
  | @cons m u m' l ls hst _ ih =>
    obtain ⟨k, n⟩ := l
    have hok := smpStep_ok hm hst
    obtain ⟨hinv, hcount⟩ := ih hok.inv
    refine ⟨hinv, fun c => ?_⟩
    have hc := hcount c
    have ht : taken ((k, n) :: ls) c = taken ls c + if k = c ∧ n = .took then 1 else 0 := by
      simp [taken, List.count_cons]
    have hg : given ((k, n) :: ls) c = given ls c + if k = c ∧ n = .gave then 1 else 0 := by
      simp [given, List.count_cons]
    rw [ht, hg]
    by_cases hk : k = c
    · subst hk
      cases n with
      | took =>
        obtain ⟨h0, h1⟩ := hok.took rfl
        rw [h1] at hc
        simp [h0] at hc ⊢
        omega
      | gave =>
        obtain ⟨h0, h1⟩ := hok.gave rfl
        rw [h1] at hc
        simp [h0] at hc ⊢
        omega
      | other =>
        rw [hok.other rfl] at hc
        simpa using hc
    · rw [hok.others c (Ne.symm hk)] at hc
      simpa [hk] using hc

theorem start_inv (h : SmpStart p m) : LockInv m := by
  obtain ⟨hkern, hlock, hpc⟩ := h
  have hst : (m.kern.cpus p.bsp).cpuStatus = .started := by
    unfold i386Early at hkern
    rw [run_bind] at hkern
    cases hmem : memInit p (startState p) with
    | error e t =>
      rw [hmem] at hkern
      cases hkern
    | ok a t =>
      rw [hmem] at hkern
      simp only [envInit, run_bind, run_modify] at hkern
      have hsame := (lapicInit_status (R := fun _ => True)).ok hkern p.bsp
      rw [hsame]
      simp [KState.setCpu]
  refine ⟨?_, fun c => ?_⟩
  · rw [hlock]
    refine spinInv_free fun c => ?_
    rw [hpc]
    rcases eq_or_ne c p.bsp with rfl | hc
    · rw [Function.update_self]
      rfl
    · rw [Function.update_of_ne hc]
      rfl
  · rw [hpc]
    rcases eq_or_ne c p.bsp with rfl | hc
    · rw [Function.update_self]
      show _ ≠ _
      rw [hst]
      simp
    · rw [Function.update_of_ne hc]
      trivial

/-- Whatever the order in which CPUs move, `kernel_lock` is taken and given back in turn, by one CPU
    at a time, around all kernel code that needs it. -/
theorem lock_discipline (hstart : SmpStart p m) (h : Run (SmpStep p) m ls m') :
    Disciplined ls m' := by
  obtain ⟨hinv, hcount⟩ := run_ok h (start_inv hstart)
  have hfree : ∀ c, m.owns c = false := by
    intro c
    unfold Smp.owns
    rw [hstart.pc]
    rcases eq_or_ne c p.bsp with rfl | hc
    · rw [Function.update_self]
      rfl
    · rw [Function.update_of_ne hc]
      rfl
  have htaken : ∀ c, taken ls c = given ls c + (m'.owns c).toNat := by
    intro c
    rw [← hcount c, hfree]
    rfl
  have hholds : ∀ c, Holds ls c ↔ m'.owns c = true := by
    intro c
    unfold Holds
    rw [htaken]
    cases m'.owns c <;> simp
  have hnot : ∀ c, taken ls c = given ls c ↔ m'.owns c = false := by
    intro c
    rw [htaken]
    cases m'.owns c <;> simp
  refine ⟨fun c => ?_, fun c d hc hd => ?_, fun c hc => ?_, fun c hc => ?_, fun c call hc => ?_,
    fun c halt hc => ?_, fun c hc => ?_, fun c hc => ?_⟩
  · rw [hnot, hholds]
    cases m'.owns c <;> simp
  · exact hinv.spin.unique c d ((hholds c).mp hc) ((hholds d).mp hd)
  · rw [hholds]
    unfold Smp.owns
    cases hpc : m'.pc c <;> rw [hpc] at hc <;> first | exact hc.elim | rfl | skip
    simp only [Pc.role]
    rw [if_neg hc]
    rfl
  · rw [hnot]
    unfold Smp.owns
    rcases hc with hc | hc <;> rw [hc] <;> rfl
  · rw [hholds]
    unfold Smp.owns
    rw [hc]
    simp [Pc.role, Role.owns]
  · rw [hholds]
    unfold Smp.owns
    rw [hc]
    rfl
  · rcases hc with ⟨a, call, hpc, hp⟩ | ⟨r, halt, hpc, hp⟩
    · refine (hinv.spin.acquire (c := c) (a := a) (call.readable m'.kern c) ?_).1 hp
      show (m'.pc c).role = _
      rw [hpc]
      rfl
    · refine (hinv.spin.release (c := c) (a := r) ?_).1 hp
      show (m'.pc c).role = _
      rw [hpc]
      rfl
  · have hs := hinv.sound c
    rw [hc] at hs
    exact hs

end

/-! ### A CPU that moves alone -/

section

variable {p : BootParams} {c : CpuIdx} {k k' : KState} {l l' : Spin CpuIdx} {f : CpuIdx → Pc}
  {pc pc' : Pc} {n : Note}

theorem goto_goto (m : Smp) (a b : Pc) : (m.goto c a).goto c b = m.goto c b := by
  simp [Smp.goto]

/-- One step of a CPU, seen from the places of the others. -/
theorem run_alone (h : kernelStep p c (Smp.goto ⟨k, l, f⟩ c pc)
      = some (n, (Smp.goto ⟨k', l', Function.update f c pc⟩ c pc'))) :
    Run (SmpStep p) (Smp.goto ⟨k, l, f⟩ c pc) [(c, n)] (Smp.goto ⟨k', l', f⟩ c pc') := by
  have hrun := Run.single (SmpStep.kernel h)
  rwa [show Smp.goto ⟨k', l', Function.update f c pc⟩ c pc' = Smp.goto ⟨k', l', f⟩ c pc' from
    goto_goto ⟨k', l', f⟩ pc pc'] at hrun

theorem goto_pc (pc : Pc) : (Smp.goto ⟨k, l, f⟩ c pc).pc c = pc := Function.update_self ..

/-- `lock_kernel` on a free lock, if the callers can be recorded. -/
theorem lock_alone (call : LockCall) (hr : call.readable k c = true) : Run (SmpStep p)
    (Smp.goto ⟨k, ⟨false, none⟩, f⟩ c (.locking .locked call))
    [(c, .other), (c, .took), (c, .other), (c, .other)] (Smp.goto ⟨k, ⟨true, some c⟩, f⟩ c (call.pc p)) := by
  have h1 : Run (SmpStep p) (Smp.goto ⟨k, ⟨false, none⟩, f⟩ c (.locking .locked call))
      [(c, .other)] (Smp.goto ⟨k, ⟨false, none⟩, f⟩ c (.locking .spin call)) :=
    run_alone (by unfold kernelStep; rw [goto_pc]; rfl)
  have h2 : Run (SmpStep p) (Smp.goto ⟨k, ⟨false, none⟩, f⟩ c (.locking .spin call))
      [(c, .took)] (Smp.goto ⟨k, ⟨true, none⟩, f⟩ c (.locking .record call)) :=
    run_alone (by unfold kernelStep; rw [goto_pc]; rfl)
  have h3 : Run (SmpStep p) (Smp.goto ⟨k, ⟨true, none⟩, f⟩ c (.locking .record call))
      [(c, .other)] (Smp.goto ⟨k, ⟨true, some c⟩, f⟩ c (.locking .callers call)) :=
    run_alone (by unfold kernelStep; rw [goto_pc]; rfl)
  have h4 : Run (SmpStep p) (Smp.goto ⟨k, ⟨true, some c⟩, f⟩ c (.locking .callers call))
      [(c, .other)] (Smp.goto ⟨k, ⟨true, some c⟩, f⟩ c (call.pc p)) :=
    run_alone (by
      unfold kernelStep
      rw [goto_pc]
      simp only [Acquire.run, Smp.goto, hr, if_true])
  exact h1.append (h2.append (h3.append h4))

/-- `unlock_kernel` on a lock that the CPU holds. -/
theorem unlock_alone (halt : Bool) : ∃ ls, Run (SmpStep p)
    (Smp.goto ⟨k, ⟨true, some c⟩, f⟩ c (.unlocking .locked halt)) ls
    (Smp.goto ⟨k, ⟨false, none⟩, f⟩ c (if halt then .halted else .user)) := by
  have h1 : Run (SmpStep p) (Smp.goto ⟨k, ⟨true, some c⟩, f⟩ c (.unlocking .locked halt))
      [(c, .other)] (Smp.goto ⟨k, ⟨true, some c⟩, f⟩ c (.unlocking .owner halt)) :=
    run_alone (by unfold kernelStep; rw [goto_pc]; rfl)
  have h2 : Run (SmpStep p) (Smp.goto ⟨k, ⟨true, some c⟩, f⟩ c (.unlocking .owner halt))
      [(c, .other)] (Smp.goto ⟨k, ⟨true, some c⟩, f⟩ c (.unlocking .clear halt)) :=
    run_alone (by
      unfold kernelStep
      rw [goto_pc]
      simp only [Release.run, Smp.goto, if_true])
  have h3 : Run (SmpStep p) (Smp.goto ⟨k, ⟨true, some c⟩, f⟩ c (.unlocking .clear halt))
      [(c, .other)] (Smp.goto ⟨k, ⟨true, none⟩, f⟩ c (.unlocking .free halt)) :=
    run_alone (by unfold kernelStep; rw [goto_pc]; rfl)
  have h4 : Run (SmpStep p) (Smp.goto ⟨k, ⟨true, none⟩, f⟩ c (.unlocking .free halt))
      [(c, .gave)] (Smp.goto ⟨k, ⟨false, none⟩, f⟩ c (if halt then .halted else .user)) :=
    run_alone (by unfold kernelStep; rw [goto_pc]; rfl)
  exact ⟨_, h1.append (h2.append (h3.append h4))⟩

/-- Where a CPU is once it has left the kernel. -/
def leftAt (k : KState) (c : CpuIdx) : Pc := if (k.cpus c).mode = .halted then .halted else .user

/-- A kernel function that ends in `env_run` or `sched_halt`, and `unlock_kernel`. -/
theorem leave_alone {x : K Unit} {next : Pc}
    (hstep : kernelStep p c (Smp.goto ⟨k, ⟨true, some c⟩, f⟩ c pc)
      = Smp.call (Smp.goto ⟨k, ⟨true, some c⟩, f⟩ c pc) c x next)
    (hx : x k = .error .leave k') : ∃ ls, Run (SmpStep p)
      (Smp.goto ⟨k, ⟨true, some c⟩, f⟩ c pc) ls (Smp.goto ⟨k', ⟨false, none⟩, f⟩ c (leftAt k' c)) := by
  have h1 : Run (SmpStep p) (Smp.goto ⟨k, ⟨true, some c⟩, f⟩ c pc) [(c, .other)]
      (Smp.goto ⟨k', ⟨true, some c⟩, f⟩ c
        (.unlocking .locked (decide ((k'.cpus c).mode = .halted)))) := by
    refine run_alone ?_
    rw [hstep]
    unfold Smp.call
    rw [show x (Smp.goto ⟨k, ⟨true, some c⟩, f⟩ c pc).kern = .error .leave k' from hx]
    rfl
  obtain ⟨ls, h2⟩ := unlock_alone (p := p) (c := c) (k := k') (f := f)
    (decide ((k'.cpus c).mode = .halted))
  have h3 : Run (SmpStep p) (Smp.goto ⟨k', ⟨true, some c⟩, f⟩ c
      (.unlocking .locked (decide ((k'.cpus c).mode = .halted)))) ls
      (Smp.goto ⟨k', ⟨false, none⟩, f⟩ c (leftAt k' c)) := by
    unfold leftAt
    simpa using h2
  exact ⟨_, h1.append h3⟩

/-- A kernel function that returns. -/
theorem return_alone {x : K Unit} {next : Pc}
    (hstep : kernelStep p c (Smp.goto ⟨k, l, f⟩ c pc)
      = Smp.call (Smp.goto ⟨k, l, f⟩ c pc) c x next) (hx : x k = .ok () k') :
    Run (SmpStep p) (Smp.goto ⟨k, l, f⟩ c pc) [(c, .other)] (Smp.goto ⟨k', l, f⟩ c next) := by
  refine run_alone ?_
  rw [hstep]
  unfold Smp.call
  rw [show x (Smp.goto ⟨k, l, f⟩ c pc).kern = .ok () k' from hx]
  rfl

/-- The dispatch of a trap and the end of `trap`. -/
theorem dispatch_alone {inp : Input} {tf : Trapframe}
    (h : (trapDispatch c inp tf >>= fun _ => trapReturn c) k = .error .leave k') :
    ∃ ls, Run (SmpStep p) (Smp.goto ⟨k, ⟨true, some c⟩, f⟩ c (.dispatch inp tf)) ls
      (Smp.goto ⟨k', ⟨false, none⟩, f⟩ c (leftAt k' c)) := by
  have hstep : kernelStep p c (Smp.goto ⟨k, ⟨true, some c⟩, f⟩ c (.dispatch inp tf))
      = Smp.call (Smp.goto ⟨k, ⟨true, some c⟩, f⟩ c (.dispatch inp tf)) c (trapDispatch c inp tf)
        .returned := by
    unfold kernelStep
    rw [goto_pc]
  rw [run_bind] at h
  cases hd : trapDispatch c inp tf k with
  | ok a t =>
    rw [hd] at h
    have h1 := return_alone hstep hd
    have hret : kernelStep p c (Smp.goto ⟨t, ⟨true, some c⟩, f⟩ c .returned)
        = Smp.call (Smp.goto ⟨t, ⟨true, some c⟩, f⟩ c .returned) c (trapReturn c) .returned := by
      unfold kernelStep
      rw [goto_pc]
    obtain ⟨ls, h2⟩ := leave_alone hret h
    exact ⟨_, h1.append h2⟩
  | error e t =>
    rw [hd] at h
    cases h
    exact leave_alone hstep hd

/-- A marked environment is freed when it traps, and another one is chosen. -/
theorem trap_zombie {inp : Input} {tf : Trapframe} {cur : EnvIdx} {s : KState}
    (hcs : tf.tfCs &&& 3 = 3) (hc : s.curenv c = some cur) (hk : CallersOk s c inp tf)
    (hdy : (s.envs cur).envStatus = .dying) :
    trap c inp tf s = (collect c cur >>= fun _ => schedYield c) (started c s) := by
  have hdy' : ((s.setCpu c { s.cpus c with cpuStatus := .started }).envs cur).envStatus = .dying :=
    hdy
  simp only [trap, collect, started, run_bind, run_modify, run_ite, if_pos hcs,
    getCurenv_run (curenv_started hc), callers_run hk, run_get, if_pos hdy']
  cases envFree c cur (s.setCpu c { s.cpus c with cpuStatus := .started }) with
  | error e t => rfl
  | ok a t =>
    simp only
    cases hy : schedYield c (t.setCurenv c none) with
    | ok a u => exact absurd hy (schedYield_stops _ u)
    | error e u => rfl

/-- The garbage collection in `trap`, and the choice of another environment. -/
theorem collect_alone {inp : Input} {tf : Trapframe} {cur : EnvIdx} (hc : k.curenv c = some cur)
    (hdy : (k.envs cur).envStatus = .dying)
    (h : (collect c cur >>= fun _ => schedYield c) k = .error .leave k') :
    ∃ ls, Run (SmpStep p) (Smp.goto ⟨k, ⟨true, some c⟩, f⟩ c (.trapped inp tf)) ls
      (Smp.goto ⟨k', ⟨false, none⟩, f⟩ c (leftAt k' c)) := by
  have hstep : kernelStep p c (Smp.goto ⟨k, ⟨true, some c⟩, f⟩ c (.trapped inp tf))
      = Smp.call (Smp.goto ⟨k, ⟨true, some c⟩, f⟩ c (.trapped inp tf)) c (collect c cur)
        .yielding := by
    unfold kernelStep
    rw [goto_pc]
    simp only
    rw [show (Smp.goto ⟨k, ⟨true, some c⟩, f⟩ c (.trapped inp tf)).kern.curenv c = some cur from hc]
    exact if_pos hdy
  rw [run_bind] at h
  cases hd : collect c cur k with
  | ok a t =>
    rw [hd] at h
    have h1 := return_alone hstep hd
    have hyl : kernelStep p c (Smp.goto ⟨t, ⟨true, some c⟩, f⟩ c .yielding)
        = Smp.call (Smp.goto ⟨t, ⟨true, some c⟩, f⟩ c .yielding) c (schedYield c) .yielding := by
      unfold kernelStep
      rw [goto_pc]
    obtain ⟨ls, h2⟩ := leave_alone hyl h
    exact ⟨_, h1.append h2⟩
  | error e t =>
    rw [hd] at h
    cases h
    exact leave_alone hstep hd

/-- The system of whole kernel entries is this one with entries that no other CPU interrupts. -/
theorem step_alone {m : Smp} {inp : Input} {tf : Trapframe} (hl : m.lock = ⟨false, none⟩)
    (hpc : m.pc c = leftAt m.kern c) (hs : (m.pc c).Sound (m.kern.cpus c).cpuStatus)
    (h : Step m.kern (c, .trap inp tf) k') : ∃ ls, Run (SmpStep p) m ls
      (Smp.goto ⟨k', ⟨false, none⟩, m.pc⟩ c (leftAt k' c)) := by
  obtain ⟨k, l, f⟩ := m
  simp only at hl hpc hs h ⊢
  subst hl
  have heff := step_effect h
  have hst := h
  unfold Step step at hst
  simp only at hst
  split at hst
  case isFalse => cases hst
  rename_i ha
  have hrun : trap c inp tf k = .error .leave k' := enter_eq_some.mp hst
  have hbegin : ∀ {q : Pc}, f c = q → (⟨k, ⟨false, none⟩, f⟩ : Smp) = Smp.goto ⟨k, ⟨false, none⟩, f⟩ c q := by
    rintro q rfl
    simp [Smp.goto]
  have hallowed := ha
  rcases hallowed with ⟨hm, hcs⟩ | ⟨hm, hcs, hirq⟩
  · -- from user mode
    have h3 : tf.tfCs &&& 3 = 3 := cs_user hcs
    have huser : f c = .user := by
      rw [hpc, leftAt, hm]
      rfl
    rw [huser] at hs
    obtain ⟨cur, hc⟩ : ∃ cur, k.curenv c = some cur := by
      cases heff with
      | trap _ ht =>
        cases ht with
        | collected _ hc => exact ⟨_, hc⟩
        | faulted _ hc => exact ⟨_, hc⟩
        | killed _ hc => exact ⟨_, hc⟩
        | called _ hc => exact ⟨_, hc⟩
        | left _ hc => exact ⟨_, hc⟩
        | timer _ hc => exact ⟨_, hc⟩
        | woken hm' => exact absurd (hm.symm.trans hm') (by decide)
    have hk : CallersOk k c inp tf := callersOk_of_step ha hm hc h
    have hc' : (started c k).curenv c = some cur := curenv_started hc
    have hr : (LockCall.trapped inp tf).readable (started c k) c = true :=
      decide_eq_true (hk.congr (show (started c k).mem = k.mem from rfl) rfl rfl)
    have h0 : Run (SmpStep p) (Smp.goto ⟨k, ⟨false, none⟩, f⟩ c .user) [(c, .other)]
        (Smp.goto ⟨k, ⟨false, none⟩, f⟩ c (.entry inp tf)) := by
      have hstep : UserStep c (Smp.goto ⟨k, ⟨false, none⟩, f⟩ c .user)
          (Smp.goto (Smp.goto ⟨k, ⟨false, none⟩, f⟩ c .user) c (.entry inp tf)) :=
        .trap (goto_pc _) hcs
      rw [goto_goto] at hstep
      exact .single (.user hstep)
    have h1 : Run (SmpStep p) (Smp.goto ⟨k, ⟨false, none⟩, f⟩ c (.entry inp tf)) [(c, .other)]
        (Smp.goto ⟨started c k, ⟨false, none⟩, f⟩ c (.entered inp tf)) := by
      refine run_alone ?_
      unfold kernelStep
      rw [goto_pc]
      exact if_neg hs
    have h2 : Run (SmpStep p) (Smp.goto ⟨started c k, ⟨false, none⟩, f⟩ c (.entered inp tf))
        [(c, .other)]
        (Smp.goto ⟨started c k, ⟨false, none⟩, f⟩ c (.locking .locked (.trapped inp tf))) := by
      refine run_alone ?_
      unfold kernelStep
      rw [goto_pc]
      simp only [if_pos h3]
      rw [show (Smp.goto ⟨started c k, ⟨false, none⟩, f⟩ c (.entered inp tf)).kern.curenv c
        = some cur from hc']
      rfl
    have hin := (h0.append h1).append (h2.append (lock_alone (p := p) (.trapped inp tf) hr))
    rw [hbegin huser]
    by_cases hdy : (k.envs cur).envStatus = .dying
    · rw [trap_zombie h3 hc hk hdy] at hrun
      obtain ⟨ls, hd⟩ := collect_alone (p := p) (f := f) hc' hdy hrun
      exact ⟨_, hin.append hd⟩
    · have hsave : Run (SmpStep p) (Smp.goto ⟨started c k, ⟨true, some c⟩, f⟩ c (.trapped inp tf))
          [(c, .other)] (Smp.goto ⟨saved c cur tf k, ⟨true, some c⟩, f⟩ c (.dispatch inp tf)) := by
        refine run_alone ?_
        unfold kernelStep
        rw [goto_pc]
        simp only
        rw [show (Smp.goto ⟨started c k, ⟨true, some c⟩, f⟩ c (.trapped inp tf)).kern.curenv c
          = some cur from hc']
        exact if_neg hdy
      rw [trap_user hcs hc hk hdy] at hrun
      obtain ⟨ls, hd⟩ := dispatch_alone (p := p) (f := f) hrun
      exact ⟨_, hin.append (hsave.append hd)⟩
  · -- an interrupt that wakes a halted CPU
    have h3 : ¬ tf.tfCs &&& 3 = 3 := by
      rw [hcs]
      decide
    have hhalted : f c = .halted := by
      rw [hpc, leftAt, hm]
      rfl
    rw [hhalted] at hs
    have h0 : Run (SmpStep p) (Smp.goto ⟨k, ⟨false, none⟩, f⟩ c .halted) [(c, .other)]
        (Smp.goto ⟨k, ⟨false, none⟩, f⟩ c (.entry inp tf)) := by
      have hstep : UserStep c (Smp.goto ⟨k, ⟨false, none⟩, f⟩ c .halted)
          (Smp.goto (Smp.goto ⟨k, ⟨false, none⟩, f⟩ c .halted) c (.entry inp tf)) :=
        .wake (goto_pc _) hcs hirq
      rw [goto_goto] at hstep
      exact .single (.user hstep)
    have h1 : Run (SmpStep p) (Smp.goto ⟨k, ⟨false, none⟩, f⟩ c (.entry inp tf)) [(c, .other)]
        (Smp.goto ⟨started c k, ⟨false, none⟩, f⟩ c (.locking .locked (.woken inp tf))) := by
      refine run_alone ?_
      unfold kernelStep
      rw [goto_pc]
      exact if_pos hs
    have h2 : Run (SmpStep p) (Smp.goto ⟨started c k, ⟨true, some c⟩, f⟩ c (.entered inp tf))
        [(c, .other)] (Smp.goto ⟨started c k, ⟨true, some c⟩, f⟩ c (.dispatch inp tf)) := by
      refine run_alone ?_
      unfold kernelStep
      rw [goto_pc]
      exact if_neg h3
    have hin := (h0.append h1).append ((lock_alone (p := p) (.woken inp tf) rfl).append h2)
    have hdisp : (trapDispatch c inp tf >>= fun _ => trapReturn c) (started c k)
        = .error .leave k' := by
      rw [← hrun]
      simp only [trap, run_bind, run_modify, if_neg h3]
      rfl
    rw [hbegin hhalted]
    obtain ⟨ls, hd⟩ := dispatch_alone (p := p) (f := f) hdisp
    exact ⟨_, hin.append hd⟩

end

/-! ### The demonstration machine -/

theorem i386Early_ok {p : BootParams} {t : KState} (ht : memInit p (startState p) = .ok () t)
    (hl : lapicInit p = pure ()) : ∃ k, i386Early p (startState p) = .ok () k := by
  unfold i386Early
  rw [hl]
  simp only [run_bind, ht, envInit, run_modify, run_pure]
  exact ⟨_, rfl⟩

/-- Its boot processor gets to the point where it takes the lock. -/
theorem demo_start : ∃ k, SmpStart demo (Smp.goto ⟨k, ⟨false, none⟩, fun _ => .off⟩ 1
    (.locking .locked .booting)) := by
  obtain ⟨t, ht⟩ := memInit_demo
  have hl : lapicInit demo = pure () := by
    have h : demo.lapicaddr = 0 := rfl
    simp only [lapicInit, h]
    rfl
  obtain ⟨k, hk⟩ := i386Early_ok ht hl
  exact ⟨k, hk, rfl, rfl⟩

/-- There it takes the lock. -/
theorem lock_discipline_demo : ∃ m ls m', SmpStart demo m ∧ Run (SmpStep demo) m ls m' ∧
    Holds ls 1 ∧ Disciplined ls m' := by
  obtain ⟨k, hk⟩ := demo_start
  have hrun := lock_alone (p := demo) (c := 1) (k := k) (f := fun _ => .off) .booting rfl
  exact ⟨_, _, _, hk, hrun, by decide, lock_discipline hk hrun⟩

end Jos
