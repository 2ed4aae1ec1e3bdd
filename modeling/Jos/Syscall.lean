import Jos.Env

/-!
  System calls (`kern/syscall.c`).

  `Input` is what a kernel entry reads from outside the kernel's state: the faulting address, a
  console character, what an uninitialised pointer finds when it is dereferenced, the cached
  translations that its accesses go through, and what the record of the lock's callers follows. -/

namespace Jos

structure Input where
  cr2 : Word
  cgetc : Word
  /-- The word behind `sys_ipc_try_send`'s unset `pte`; `none` when the address is not mapped. -/
  strayPte : Option Word
  /-- For the pages that the CPU reaches through a translation it has cached, where that leads. -/
  cached : Nat → Option Nat
  /-- The rounds that `get_caller_pcs` has left at the `%ebp` of user code: ten, less one for each
      kernel function on the stack, which depends on what the compiler inlines. -/
  callers : Nat
  /-- The words that it takes for saved `%ebp`s. The kernel's stacks and data are not laid out in
      `mem`, so they cannot be read there. -/
  savedEbp : Word → Word

/-- Nothing out of the ordinary. -/
def Input.plain : Input := ⟨0, 0, none, fun _ => none, 8, fun _ => 0⟩

/-- The running environment. System calls are made by one, so there always is one. -/
def getCurenv (c : CpuIdx) : K EnvIdx := do
  let s ← get
  match s.curenv c with
  | none => panic
  | some cur => return cur

/-- The page directory of `e`; code that follows the pointer faults on a null one. -/
def getPgdir (e : EnvIdx) : K Nat := do
  let s ← get
  match (s.envs e).envPgdir with
  | none => panic
  | some pd => return pd

/-- `sys_cputs`. Printing changes nothing that is modelled. -/
def sysCputs (c : CpuIdx) (va len : Word) : K Unit := do
  userMemAssert c (← getCurenv c) va len 0

/-- `sys_getenvid`. -/
def sysGetenvid (c : CpuIdx) : K Word := do
  let cur ← getCurenv c
  let s ← get
  return (s.envs cur).envId

/-- `sys_env_destroy`. -/
def sysEnvDestroy (c : CpuIdx) (envid : Word) : K (Except Err Word) := do
  match ← envid2env c envid true with
  | .error err => return .error err
  | .ok e =>
    envDestroy c e
    return .ok 0

/-- `sys_exofork`. -/
def sysExofork (c : CpuIdx) : K (Except Err Word) := do
  let cur ← getCurenv c
  let s ← get
  match ← envAlloc (s.envs cur).envId with
  | .error err => return .error err
  | .ok e =>
    modify fun s => s.setEnv e { s.envs e with
      envStatus := .notRunnable, envTf := (s.envs cur).envTf.withEax 0 }
    let s ← get
    return .ok (s.envs e).envId

/-- The two statuses that `sys_env_set_status` accepts, by their numbers. -/
def statusOfWord (w : Word) : Option EnvStatus :=
  if w = 2 then some .runnable else if w = 4 then some .notRunnable else none

/-- `sys_env_set_status`. -/
def sysEnvSetStatus (c : CpuIdx) (envid status : Word) : K (Except Err Word) := do
  match statusOfWord status with
  | none => return .error .inval
  | some st =>
    match ← envid2env c envid true with
    | .error _ => return .error .badEnv
    | .ok e =>
      modify fun s => s.setEnv e { s.envs e with envStatus := st }
      return .ok 0

/-- `sys_env_set_pgfault_upcall`. -/
def sysEnvSetPgfaultUpcall (c : CpuIdx) (envid func : Word) : K (Except Err Word) := do
  match ← envid2env c envid true with
  | .error _ => return .error .badEnv
  | .ok e =>
    modify fun s => s.setEnv e { s.envs e with envPgfaultUpcall := func }
    return .ok 0

/-- An address that may be mapped by a system call: below `UTOP` and page-aligned. -/
def vaOk (va : Word) : Bool := decide (va < utop) && decide (pgoff va = 0)

/-- Permissions that `sys_page_alloc` and `sys_page_map` accept. -/
def permOk (perm : Word) : Bool :=
  decide (perm &&& pteU ≠ 0) && decide (perm &&& pteP ≠ 0) && decide (perm &&& ~~~pteSyscall = 0)

/-- `sys_page_alloc`. -/
def sysPageAlloc (c : CpuIdx) (envid va perm : Word) : K (Except Err Word) := do
  match ← envid2env c envid true with
  | .error _ => return .error .badEnv
  | .ok e =>
    if vaOk va = false then return .error .inval
    if permOk perm = false then return .error .inval
    match ← pageAlloc true with
    | none => return .error .inval
    | some pi =>
      match ← pageInsert c (← getPgdir e) pi va perm with
      | .error _ =>
        pageFree pi
        return .error .noMem
      | .ok () => return .ok 0

/-- `sys_page_map`. -/
def sysPageMap (c : CpuIdx) (srcenvid srcva dstenvid dstva perm : Word) : K (Except Err Word) := do
  match ← envid2env c srcenvid true with
  | .error _ => return .error .badEnv
  | .ok src =>
    match ← envid2env c dstenvid true with
    | .error _ => return .error .badEnv
    | .ok dst =>
      if vaOk srcva = false ∨ vaOk dstva = false then return .error .inval
      if permOk perm = false then return .error .inval
      match ← pageLookup (← getPgdir src) srcva with
      | none => return .error .inval
      | some (pp, pte) =>
        let s ← get
        if s.entry pte &&& pteW = 0 ∧ perm &&& pteW ≠ 0 then return .error .inval
        match ← pageInsert c (← getPgdir dst) pp dstva perm with
        | .error _ => return .error .inval
        | .ok () => return .ok 0

/-- `sys_page_unmap`. -/
def sysPageUnmap (c : CpuIdx) (envid va : Word) : K (Except Err Word) := do
  match ← envid2env c envid true with
  | .error _ => return .error .badEnv
  | .ok e =>
    if vaOk va = false then return .error .inval
    pageRemove c (← getPgdir e) va
    return .ok 0

/-- The page part of `sys_ipc_try_send`. When nothing is mapped at `srcva`, `pte` is read before it
    was set; whatever is found there, the call fails or faults. -/
def ipcSendPage (c : CpuIdx) (inp : Input) (env : EnvIdx) (srcva perm : Word) :
    K (Except Err Unit) := do
  let cur ← getCurenv c
  let found ← pageLookup (← getPgdir cur) srcva
  if srcva ≠ rounddown srcva then return .error .inval
  match found with
  | none =>
    match inp.strayPte with
    | none => panic
    | some _ => return .error .inval
  | some (pg, pte) =>
    let s ← get
    let w := s.entry pte
    if w &&& perm &&& pteSyscall ≠ perm &&& pteSyscall then return .error .inval
    if perm &&& pteW ≠ 0 ∧ w &&& pteW = 0 then return .error .inval
    if (s.envs env).envIpcDstva < utop then
      match ← pageInsert c (← getPgdir env) pg (s.envs env).envIpcDstva perm with
      | .error _ => return .error .noMem
      | .ok () =>
        modify fun s => s.setEnv env { s.envs env with envIpcPerm := perm }
        return .ok ()
    else return .ok ()

/-- The last part of `sys_ipc_try_send`: the target stops receiving and gets the message. -/
def ipcDeliver (c : CpuIdx) (env : EnvIdx) (value : Word) : K Unit := do
  let cur ← getCurenv c
  modify fun s => s.setEnv env { s.envs env with
    envIpcRecving := false
    envIpcFrom := (s.envs cur).envId
    envIpcValue := value
    envStatus := .runnable
    envTf := (s.envs env).envTf.withEax 0 }

/-- `sys_ipc_try_send`. -/
def sysIpcTrySend (c : CpuIdx) (inp : Input) (envid value srcva perm : Word) :
    K (Except Err Word) := do
  match ← envid2env c envid false with
  | .error _ => return .error .badEnv
  | .ok env =>
    let s ← get
    if (s.envs env).envIpcRecving = false then return .error .ipcNotRecv
    let sent ← if srcva < utop then ipcSendPage c inp env srcva perm else pure (.ok ())
    match sent with
    | .error err => return .error err
    | .ok () =>
      ipcDeliver c env value
      return .ok 0

/-- `sys_ipc_try_send` from the end of its page part on. -/
def sysIpcTrySendRest (c : CpuIdx) (env : EnvIdx) (value : Word) (sent : Except Err Unit) :
    K (Except Err Word) :=
  match sent with
  | .error err => return .error err
  | .ok () => do
    ipcDeliver c env value
    return .ok 0

/-- `sys_ipc_recv`: only returns on an error. -/
def sysIpcRecv (c : CpuIdx) (dstva : Word) : K (Except Err Word) := do
  if dstva < utop ∧ pgoff dstva ≠ 0 then return .error .inval
  let cur ← getCurenv c
  modify fun s => s.setEnv cur { s.envs cur with
    envIpcRecving := true
    envIpcDstva := dstva
    envIpcValue := 0
    envIpcFrom := 0
    envIpcPerm := 0
    envStatus := .notRunnable }
  schedYield c
  return .ok 0

/-- What a system call leaves in `eax`. -/
def retCode : Except Err Word → Word
  | .ok w => w
  | .error err => err.code

/-- `syscall`: dispatch on the number (`inc/syscall.h`). -/
def syscall (c : CpuIdx) (inp : Input) (syscallno a1 a2 a3 a4 a5 : Word) : K Word := do
  match syscallno.toNat with
  | 0 =>
    sysCputs c a1 a2
    return 0
  | 1 => return inp.cgetc
  | 2 => sysGetenvid c
  | 3 => return retCode (← sysEnvDestroy c a1)
  | 4 => return retCode (← sysPageAlloc c a1 a2 a3)
  | 5 => return retCode (← sysPageMap c a1 a2 a3 a4 a5)
  | 6 => return retCode (← sysPageUnmap c a1 a2)
  | 7 => return retCode (← sysExofork c)
  | 8 => return retCode (← sysEnvSetStatus c a1 a2)
  | 9 => return retCode (← sysEnvSetPgfaultUpcall c a1 a2)
  | 10 =>
    schedYield c
    return 0
  | 11 => return retCode (← sysIpcTrySend c inp a1 a2 a3 a4)
  | 12 => return retCode (← sysIpcRecv c a1)
  | _ => return Err.code .inval

end Jos
