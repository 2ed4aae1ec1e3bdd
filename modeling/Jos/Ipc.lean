import Jos.Mailbox
import Jos.Lib.Rendezvous

/-!
  Programs that communicate through `ipc_send` and `ipc_recv` (`lib/ipc.c`).

  All environments run one program text, which says what comes next: a message, a `fork`, a line of
  output, the end. A thread is where its environment is in the library. It enters the kernel through
  the trap frames of `Step`, and finds the result of a system call in `eax` when it runs again; the
  fields of `thisenv` it reads from the kernel's table. The memory of a program is part of its state
  here, which `fork` copies. -/

namespace Jos

open Lib Rendezvous

deriving instance DecidableEq for Call

namespace Ipc

/-- A program: messages are words, processes are known by their ids. -/
abbrev Text (ω σ : Type) := σ → Op Word Word ω σ

/-- Where an environment is in the library. -/
inductive Place where
  | program
  -- `ipc_send`: `sys_ipc_try_send` was called; it returned `-E_IPC_NOT_RECV`; `sys_yield` was called
  | trySend
  | notRecv
  | yielded
  -- `ipc_recv`: `sys_ipc_recv` was called; it returned; `env_ipc_from` was read
  | recv
  | stored
  | storedFrom (src : Word)
  -- `fork`: `sys_exofork` was called; the parent copies its pages; `sys_env_set_status` was called
  | exofork
  | copying (envid : Word)
  | start (envid : Word)
  -- before and after the call of `sys_getenvid` that `thisenv` is set by
  | newborn
  | getenvid
  -- `sys_cputs` was called
  | cputs
  | panicked
  deriving DecidableEq

/-- `fork`, and `pgfault` at any point, call the kernel about pages and the upcall. -/
inductive Paging where
  | no
  | called
  -- a call failed, and the library panics
  | failed
  deriving DecidableEq

structure Thread (σ : Type) where
  prog : σ
  place : Place
  paging : Paging
  thisenv : EnvIdx

/-- A system call was made in the library, and its result has not been looked at. -/
def Place.waits : Place → Bool
  | .trySend | .yielded | .recv | .exofork | .start _ | .getenvid | .cputs => true
  | _ => false

variable {ω σ : Type}

def Thread.waits (th : Thread σ) : Bool := th.paging == .called || th.place.waits

/-- `sys_page_alloc`, `sys_page_map`, `sys_page_unmap` or `sys_env_set_pgfault_upcall`. -/
def pageCall (call : Call) : Bool := call.no == 4 || call.no == 5 || call.no == 6 || call.no == 9

/-- The environment that a call about pages changes something of. -/
def pagedEnv (call : Call) : Word := if call.no = 5 then call.a3 else call.a1

/-- `set_pgfault_handler` and `pgfault` call the kernel about the environment itself, `fork` also
    about the child that it copies pages to. -/
def Place.pages (call : Call) (place : Place) : Bool :=
  pageCall call && (pagedEnv call == 0 || place == .copying (pagedEnv call))

/-- Where the thread is when it has made the call, if that comes next in the library. -/
def Place.makes (text : Text ω σ) (prog : σ) (call : Call) (place : Place) : Option Place :=
  match place with
  | .program =>
    match text prog with
    -- `pg` is `NULL` for the programs here, so that `(void *) -1` is passed
    | .send dst v _ => if call = ⟨11, dst, v, -1, 0, 0⟩ then some .trySend else none
    | .recv _ => if call = ⟨12, -1, 0, 0, 0, 0⟩ then some .recv else none
    | .fork _ _ => if call.no = 7 then some .exofork else none
    | .print _ _ => if call.no = 0 then some .cputs else none
    | .exit => if call = ⟨3, 0, 0, 0, 0, 0⟩ then some .program else none
  | .notRecv => if call = ⟨10, 0, 0, 0, 0, 0⟩ then some .yielded else none
  | .copying envid => if call = ⟨8, envid, 2, 0, 0, 0⟩ then some (.start envid) else none
  | .newborn => if call = ⟨2, 0, 0, 0, 0, 0⟩ then some .getenvid else none
  | .panicked => if call.no = 0 ∨ call.no = 2 then some .panicked else none
  | _ => none

/-- With a failed call behind it, a thread only prints the message of `_panic`. -/
def Thread.makes (text : Text ω σ) (th : Thread σ) (call : Call) : Option Place :=
  if th.paging = .failed then
    if call.no = 0 ∨ call.no = 2 then some th.place else none
  else th.place.makes text th.prog call

/-- The thread at `place`, after the result `r` of a call was looked at. -/
def Thread.resume (text : Text ω σ) (s : KState) (r : Word) (th : Thread σ) : Option (Thread σ) :=
  match th.place with
  | .trySend =>
    match text th.prog with
    | .send _ _ next =>
      if r = 0 then some { th with prog := next, place := .program }
      else if r = Err.ipcNotRecv.code then some { th with place := .notRecv }
      else some { th with place := .panicked }
    | _ => none
  | .yielded => some { th with place := .program }
  | .recv =>
    match text th.prog with
    | .recv next =>
      -- the stub panics on a positive result
      if (0 : Word).slt r then some { th with place := .panicked }
      else if r.slt 0 then some { th with prog := next r 0, place := .program }
      else some { th with place := .stored }
    | _ => none
  | .stored => some { th with place := .storedFrom (s.envs th.thisenv).envIpcFrom }
  | .storedFrom src =>
    match text th.prog with
    | .recv next =>
      some { th with prog := next (s.envs th.thisenv).envIpcValue src, place := .program }
    | _ => none
  | .exofork =>
    match text th.prog with
    | .fork parent child =>
      if r.slt 0 then some { th with place := .panicked }
      else if r = 0 then some { th with prog := child, place := .newborn }
      else some { th with prog := parent r, place := .copying r }
    | _ => none
  -- as for `recv`; `fork` panics on an error
  | .start _ => some { th with place := if r = 0 then .program else .panicked }
  | .getenvid => some { th with place := .program, thisenv := envx r }
  | .cputs =>
    match text th.prog with
    | .print _ next => some { th with prog := next, place := .program }
    | _ => none
  | _ => none

abbrev Threads (σ : Type) := EnvIdx → Thread σ

/-- The kernel and the threads. -/
structure Net (σ : Type) where
  kern : KState
  threads : Threads σ

/-- `go`: a step in the library between two system calls. `panic`: the end of the library when a call
    about pages failed. -/
inductive Act where
  | kernel (ev : Event)
  | go
  | panic

def Net.setThread (N : Net σ) (e : EnvIdx) (th : Thread σ) : Net σ :=
  { N with threads := Function.update N.threads e th }

/-- The environment that enters the kernel on CPU `c`, with its trap frame. -/
def userTrap (s : KState) (c : CpuIdx) : Event → Option (EnvIdx × Trapframe)
  | .trap _ tf => if (s.cpus c).mode = .user then (s.curenv c).map fun e => (e, tf) else none
  | _ => none

/-- What the call that leads to a place prints. -/
def Thread.prints (text : Text ω σ) (th : Thread σ) : Place → Option ω
  | .cputs =>
    match text th.prog with
    | .print w _ => some w
    | _ => none
  | _ => none

/-- The threads after a call of `e` that returns `r`. The child of `sys_exofork` is where its parent
    is. -/
def Threads.called (Th : Threads σ) (e : EnvIdx) (place : Place) (r : Word) : Threads σ :=
  let th := { Th e with place := place }
  if place = .exofork ∧ ¬ r.slt 0 ∧ r ≠ 0 then
    Function.update (Function.update Th e th) (envx r) th
  else Function.update Th e th

/-- `e` called the kernel about pages. -/
def Threads.paged (Th : Threads σ) (e : EnvIdx) : Threads σ :=
  if (Th e).paging = .failed then Th else Function.update Th e { Th e with paging := .called }

/-- A kernel entry of `e` with the frame `tf` that took the kernel to `t`. What interrupts a thread
    finds the result of its last call in `eax` as long as the thread has not looked at it. -/
def Net.enters (text : Text ω σ) (N : Net σ) (e : EnvIdx) (tf : Trapframe) (t : KState) :
    Option (Net σ × List (Word × ω)) :=
  let th := N.threads e
  if tf.tfTrapno = tSyscall then
    if th.waits then none
    else if th.place.pages (Call.ofTf tf) then some (⟨t, N.threads.paged e⟩, [])
    else (th.makes text (Call.ofTf tf)).map fun place =>
      (⟨t, N.threads.called e place (eaxOf t e)⟩,
        (th.prints text place).toList.map fun w => ((N.kern.envs e).envId, w))
  else if th.waits ∧ tf.tfRegs.regEax ≠ eaxOf N.kern e then none
  else some (⟨t, N.threads⟩, [])

/-- One step of CPU `c`, with what is printed in it and by whom. -/
def Net.step (text : Text ω σ) (c : CpuIdx) (a : Act) (N : Net σ) :
    Option (Net σ × List (Word × ω)) :=
  match a with
  | .kernel ev =>
    (Jos.step c ev N.kern).bind fun t =>
      match userTrap N.kern c ev with
      | some (e, tf) => N.enters text e tf t
      | none => some (⟨t, N.threads⟩, [])
  | .go =>
    if (N.kern.cpus c).mode = .user then
      (N.kern.curenv c).bind fun e =>
        match (N.threads e).paging with
        | .no =>
          ((N.threads e).resume text N.kern (eaxOf N.kern e)).map fun th => (N.setThread e th, [])
        | .called => some (N.setThread e { N.threads e with paging := .no }, [])
        | .failed => none
    else none
  | .panic =>
    if (N.kern.cpus c).mode = .user then
      (N.kern.curenv c).bind fun e =>
        if (N.threads e).paging = .called ∧ eaxOf N.kern e ≠ 0 then
          some (N.setThread e { N.threads e with paging := .failed }, [])
        else none
    else none

structure Label (ω : Type) where
  cpu : CpuIdx
  act : Act
  out : List (Word × ω)

def Step (text : Text ω σ) (N : Net σ) (l : Label ω) (T : Net σ) : Prop :=
  N.step text l.cpu l.act = some (T, l.out)

/-- The program of `e` is at its end. -/
def AtExit (text : Text ω σ) (N : Net σ) (e : EnvIdx) : Prop :=
  (N.threads e).place = .program ∧ text (N.threads e).prog = .exit

/-- What the programs and the library rely on in a step: nobody is killed in it before its end (a page
    fault finds `pgfault` and room on the exception stack, a string to print is mapped), and a call of
    `sys_page_map` meets no reference counter that is full. -/
structure Smooth (text : Text ω σ) (N : Net σ) (l : Label ω) : Prop where
  spared : ∀ T e, Step text N l T → (N.kern.envs e).envStatus ≠ .free →
    (T.kern.envs e).envStatus = .free → AtExit text N e
  counted : ∀ inp tf e d va f, l.act = .kernel (.trap inp tf) → InUser N.kern l.cpu e →
    tf.tfTrapno = tSyscall → (Call.ofTf tf).no = 5 →
    (Call.ofTf tf).Inserts (saved l.cpu e tf N.kern) e d va f →
    ((saved l.cpu e tf N.kern).pages f).ppRef ≠ 65535 ∨
      target (saved l.cpu e tf N.kern) (.pte d (pdx va) (ptx va)) = some f

/-- The kernel after boot, with the programs of all environments at their start: `libmain` is about to
    set `thisenv`. -/
structure Launched (init : EnvIdx → σ) (p : BootParams) (N : Net σ) : Prop where
  boot : boot p = some N.kern
  threads : ∀ e, N.threads e = ⟨init e, .newborn, .no, 0⟩

end Ipc

end Jos
