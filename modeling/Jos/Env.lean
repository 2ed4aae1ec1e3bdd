import Jos.Pmap

/-!
  Environments and the scheduler (`kern/env.c`, `kern/sched.c`), and `user_mem_assert`, which may
  destroy one. `env_run` and `sched_halt` leave the kernel, so nothing after them runs. -/

namespace Jos

/-- `envid2env`. Id 0 is the current environment, and is not checked further. -/
def envid2env (c : CpuIdx) (envid : Word) (checkperm : Bool) : K (Except Err EnvIdx) := do
  let s ← get
  match s.curenv c with
  | none => panic
  | some cur =>
    if envid = 0 then return .ok cur
    let e := envx envid
    if (s.envs e).envStatus = .free ∨ (s.envs e).envId ≠ envid then return .error .badEnv
    if checkperm ∧ e ≠ cur ∧ (s.envs e).envParentId ≠ (s.envs cur).envId then
      return .error .badEnv
    return .ok e

/-- Page directory of a new environment: empty below `UTOP`, the kernel's above, and itself at
    `UVPT`. -/
def newPgdir (s : KState) (p : Nat) : Page := fun i =>
  if i = uvptPdx then page2pa p ||| pteP ||| pteU
  else if i < utopPdx then 0
  else s.mem s.kernPgdir i

/-- `env_setup_vm`. -/
def envSetupVm (e : EnvIdx) : K (Except Err Unit) := do
  match ← pageAlloc true with
  | none => return .error .noMem
  | some p =>
    let p ← page2kva p
    modify fun s => s.setEnv e { s.envs e with envPgdir := some p }
    ppIncref p
    modify fun s => s.setFrame p (newPgdir s p)
    return .ok ()

/-- The generation of the id that follows `id` in its slot; it never goes negative. -/
def nextGeneration (id : Word) : Word :=
  let generation := (id + 4096) &&& ~~~1023
  if generation.sle 0 then 4096 else generation

/-- Segment selectors and flags that user code starts with. -/
def gdUt : BitVec 16 := 0x18
def gdUd : BitVec 16 := 0x20
def gdKt : BitVec 16 := 0x08
def flIf : Word := 0x200

/-- Saved registers of a new environment. -/
def initTf : Trapframe :=
  { Trapframe.zero with
    tfDs := gdUd ||| 3, tfEs := gdUd ||| 3, tfSs := gdUd ||| 3, tfEsp := ustacktop
    tfCs := gdUt ||| 3, tfEflags := flIf }

/-- `env_alloc`: the slot is taken off the free list once nothing can fail any more. -/
def envAlloc (parent : Word) : K (Except Err EnvIdx) := do
  let s ← get
  match s.envFreeList with
  | none => return .error .noFreeEnv
  | some e =>
    match ← envSetupVm e with
    | .error err => return .error err
    | .ok () =>
      modify fun s => s.setEnv e { s.envs e with
        envId := nextGeneration (s.envs e).envId ||| BitVec.ofNat 32 e.val
        envParentId := parent
        envStatus := .runnable
        envRuns := 0
        envTf := initTf
        envPgfaultUpcall := 0
        envIpcRecving := false }
      modify fun s => { s with envFreeList := (s.envs e).envLink }
      return .ok e

/-- One row of `env_free`'s inner loop: unmap what entry `j` of table `i` maps. -/
def envFreePte (c : CpuIdx) (pd pt : Nat) (i j : Idx) : K Unit := do
  let s ← get
  if s.mem pt j &&& pteP ≠ 0 then pageRemove c pd (pgaddr i j)

/-- One row of `env_free`'s outer loop: unmap everything in table `i`, then free the table. -/
def envFreePde (c : CpuIdx) (pd : Nat) (i : Idx) : K Unit := do
  let s ← get
  if s.mem pd i &&& pteP ≠ 0 then
    let pt ← kaddr (s.mem pd i)
    (List.finRange 1024).forM (envFreePte c pd pt i)
    modify fun s => s.poke pd i 0
    let page ← pa2page (page2pa pt)
    pageDecref page

/-- The directory indices below `UTOP`. -/
def userPdes : List Idx := (List.finRange 1024).filter (· < utopPdx)

/-- `env_free`. -/
def envFree (c : CpuIdx) (e : EnvIdx) : K Unit := do
  let s ← get
  if s.curenv c = some e then set (s.lcr3 c s.kernPgdir)
  match (s.envs e).envPgdir with
  | none => panic
  | some pd =>
    userPdes.forM (envFreePde c pd)
    modify fun s => s.setEnv e { s.envs e with envPgdir := none }
    let page ← pa2page (page2pa pd)
    pageDecref page
    modify fun s => { s.setEnv e { s.envs e with
      envStatus := .free, envLink := s.envFreeList } with envFreeList := some e }

/-- `env_free` from the flush of the address space on. -/
def envFreeRest (c : CpuIdx) (e : EnvIdx) (pgdir : Option Nat) : K Unit :=
  match pgdir with
  | none => panic
  | some pd => do
    userPdes.forM (envFreePde c pd)
    modify fun s => s.setEnv e { s.envs e with envPgdir := none }
    let page ← pa2page (page2pa pd)
    pageDecref page
    modify fun s => { s.setEnv e { s.envs e with
      envStatus := .free, envLink := s.envFreeList } with envFreeList := some e }

/-- `env_run`, which ends in `env_pop_tf`: the CPU is in user mode and the lock is released. -/
def envRun (c : CpuIdx) (e : EnvIdx) : K Unit := do
  let s ← get
  match s.curenv c with
  | none => pure ()
  | some cur =>
    if (s.envs cur).envStatus = .running then
      set (s.setEnv cur { s.envs cur with envStatus := .runnable })
  modify fun s => s.setCurenv c (some e)
  modify fun s => s.setEnv e { s.envs e with
    envStatus := .running, envRuns := (s.envs e).envRuns + 1 }
  let s ← get
  match (s.envs e).envPgdir with
  | none => panic
  | some pd =>
    set (s.lcr3 c pd)
    modify fun s => s.setEnv e { s.envs e with envCpunum := c }
    modify fun s => s.setCpu c { s.cpus c with mode := .user }
    throw .leave

/-- `env_run` from the change of `curenv` on. -/
def envRunRest (c : CpuIdx) (e : EnvIdx) : K Unit := do
  modify fun s => s.setCurenv c (some e)
  modify fun s => s.setEnv e { s.envs e with
    envStatus := .running, envRuns := (s.envs e).envRuns + 1 }
  let s ← get
  match (s.envs e).envPgdir with
  | none => panic
  | some pd =>
    set (s.lcr3 c pd)
    modify fun s => s.setEnv e { s.envs e with envCpunum := c }
    modify fun s => s.setCpu c { s.cpus c with mode := .user }
    throw .leave

/-- Whether an environment in this state keeps `sched_halt` out of the monitor. -/
def EnvStatus.busy : EnvStatus → Bool
  | .runnable | .running | .dying => true
  | _ => false

/-- `sched_halt`. -/
def schedHalt (c : CpuIdx) : K Unit := do
  let s ← get
  if ∀ e, (s.envs e).envStatus.busy = false then throw .monitor
  modify fun s => s.setCurenv c none
  modify fun s => s.lcr3 c s.kernPgdir
  modify fun s => s.setCpu c { s.cpus c with cpuStatus := .halted, mode := .halted }
  throw .leave

/-- Where `sched_yield` starts its search: just after the environment this CPU was running. -/
def schedBegin (s : KState) (c : CpuIdx) : Nat :=
  match s.curenv c with
  | none => 0
  | some cur => (envx (s.envs cur).envId).val + 1

/-- The first runnable environment in circular order from `start`. -/
def schedPick (s : KState) (start : Nat) : Option EnvIdx :=
  ((List.range nenv).map fun i => Fin.ofNat 1024 (start + i)).find?
    fun e => (s.envs e).envStatus = .runnable

/-- `sched_yield`. -/
def schedYield (c : CpuIdx) : K Unit := do
  let s ← get
  match schedPick s (schedBegin s c) with
  | some e => envRun c e
  | none =>
    match s.curenv c with
    | none => schedHalt c
    | some cur => if (s.envs cur).envStatus = .running then envRun c cur else schedHalt c

/-- `env_destroy`: an environment that another CPU is running is only marked. -/
def envDestroy (c : CpuIdx) (e : EnvIdx) : K Unit := do
  let s ← get
  if (s.envs e).envStatus = .running ∧ s.curenv c ≠ some e then
    set (s.setEnv e { s.envs e with envStatus := .dying })
  else
    envFree c e
    let s ← get
    if s.curenv c = some e then
      set (s.setCurenv c none)
      schedYield c

/-- `user_mem_assert`. -/
def userMemAssert (c : CpuIdx) (e : EnvIdx) (va len perm : Word) : K Unit := do
  match ← userMemCheck e va len (perm ||| pteU) with
  | .ok () => return
  | .error _ => envDestroy c e

end Jos
