import Jos.Fork
import Jos.UserView
import Jos.Exclusive
import Jos.Lib.CowMemory

/-!
  `fork` and `pgfault` one system call at a time, in a family of environments (`lib/fork.c`,
  `lib/pgfault.c`).

  Every environment runs a program that loads, stores, forks and exits. A thread is what its
  environment does next: between any two system calls of `fork` it may load and store, and a store
  may fault, so that `pgfault` runs first; `pgfault` copies byte by byte, and may use its exception
  stack meanwhile. The CPUs take turns in any order. Loads and stores go by the page tables: entries
  of an environment change only in its own calls or before it is started, and the return from a call
  loads the page directory again.

  Next to it goes a memory in which every environment has private pages (`Memory`), and in which a
  page of the parent is copied the moment that the child's page is settled. -/

namespace Jos

open Lib Lib.Cow

namespace CowFork

/-- A page of an address space, by its directory and table index. -/
abbrev PageNo := Idx × Idx

def pageOf (va : Word) : PageNo := (pdx va, ptx va)

/-! ### Threads -/

/-- Where an environment is, apart from a page fault. -/
inductive Place where
  | program
  -- `set_pgfault_handler`, before its two system calls
  | handler
  | upcall
  | exofork
  -- the loop of `fork`, before it looks at page `pn`
  | scan (envid : Word) (pn : Nat)
  -- `duppage`: before it reads `uvpt[pn]`, with `pte` before the first call of `sys_page_map`, and
  -- before the second one; `was` is the entry at the first call, which the code does not look at
  | enter (envid : Word) (pn : Nat)
  | dup (envid : Word) (pn : Nat) (pte : Word)
  | own (envid : Word) (pn : Nat) (was : Word)
  -- the last three system calls of `fork`
  | stack (envid : Word)
  | childUpcall (envid : Word)
  | start (envid : Word)
  | panicked
  deriving DecidableEq

/-- Where `pgfault` is, with `addr` rounded down: before `sys_page_map`, before `sys_page_alloc`, or
    with `k` bytes copied. -/
inductive Fault where
  | map (addr : Word)
  | alloc (addr : Word)
  | copy (addr : Word) (k : Nat)
  deriving DecidableEq

structure Thread where
  place : Place
  fault : Option Fault
  deriving DecidableEq

/-- A system call of `fork` or `pgfault`. -/
inductive Request where
  | map (srcva dstenvid dstva perm : Word)
  | alloc (envid va perm : Word)
  | unmap (va : Word)
  | exofork
  | setUpcall (envid : Word)
  | setRunnable (envid : Word)

/-- The system call, with `_pgfault_upcall` at the address `upcall`. -/
def Request.call (upcall : Word) (c : CpuIdx) : Request → K (Except Err Word)
  | .map srcva dstenvid dstva perm => sysPageMap c 0 srcva dstenvid dstva perm
  | .alloc envid va perm => sysPageAlloc c envid va perm
  | .unmap va => sysPageUnmap c 0 va
  | .exofork => sysExofork c
  | .setUpcall envid => sysEnvSetPgfaultUpcall c envid upcall
  | .setRunnable envid => sysEnvSetStatus c envid 2

/-- `env_run` loads the page directory again before user code goes on. -/
def reload (c : CpuIdx) (s : KState) : KState := s.lcr3 c (s.cr3 c)

/-- The system call and the return from it. -/
def perform (upcall : Word) (c : CpuIdx) (q : Request) : K (Except Err Word) := do
  let r ← q.call upcall c
  modify (reload c)
  return r

/-- The permissions that `duppage` asks for when it has read `pte`. -/
def dupPerm (pte : Word) : Word :=
  if pte &&& pteShare ≠ 0 then pteSyscall
  else if pte &&& pteW ≠ 0 ∨ pte &&& pteCow ≠ 0 then Fork.cowPerm
  else pteU ||| pteP

/-- The system call that comes next in `fork`. -/
def Place.request : Place → Option Request
  | .handler => some (.alloc 0 Fork.uxstackPage (pteU ||| pteW ||| pteP))
  | .upcall => some (.setUpcall 0)
  | .exofork => some .exofork
  | .dup envid pn pte => some (.map (Fork.pageVa pn) envid (Fork.pageVa pn) (dupPerm pte))
  | .own _ pn _ => some (.map (Fork.pageVa pn) 0 (Fork.pageVa pn) Fork.cowPerm)
  | .stack envid => some (.alloc envid Fork.uxstackPage (pteP ||| pteW ||| pteU))
  | .childUpcall envid => some (.setUpcall envid)
  | .start envid => some (.setRunnable envid)
  | _ => none

/-- The system call that comes next in `pgfault`. -/
def Fault.request : Fault → Option Request
  | .map addr => some (.map addr 0 pftemp (pteU ||| pteP))
  | .alloc addr => some (.alloc 0 addr (pteW ||| pteU ||| pteP))
  | .copy _ k => if k < pgsize then none else some (.unmap pftemp)

def Thread.request (th : Thread) : Option Request :=
  match th.fault with
  | some f => f.request
  | none => th.place.request

/-- How `fork` goes on with the result of a call; `w` was the entry of the page before it. -/
def Place.next (w : Word) (r : Except Err Word) : Place → Place
  | .handler => match r with
    | .error _ => .panicked
    | .ok _ => .upcall
  | .upcall => .exofork
  | .exofork =>
    let envid := retCode r
    if envid.slt 0 then .panicked else if envid = 0 then .program else .scan envid 0
  | .dup envid pn pte =>
    if pte &&& pteShare ≠ 0 then .scan envid (pn + 1)
    else if pte &&& pteW ≠ 0 ∨ pte &&& pteCow ≠ 0 then
      match r with
      | .error _ => .panicked
      | .ok _ => .own envid pn w
    else .scan envid (pn + 1)
  | .own envid pn _ => match r with
    | .error _ => .panicked
    | .ok _ => .scan envid (pn + 1)
  | .stack envid => match r with
    | .error _ => .panicked
    | .ok _ => .childUpcall envid
  | .childUpcall envid => match r with
    | .error _ => .panicked
    | .ok _ => .start envid
  | .start _ => match r with
    | .error _ => .panicked
    | .ok _ => .program
  | p => p

/-- How `pgfault` goes on when a call succeeded. -/
def Fault.next : Fault → Option Fault
  | .map addr => some (.alloc addr)
  | .alloc addr => some (.copy addr 0)
  | .copy _ _ => none

def Thread.next (w : Word) (r : Except Err Word) (th : Thread) : Thread :=
  match th.fault with
  | some f => match r with
    | .error _ => ⟨.panicked, none⟩
    | .ok _ => ⟨th.place, f.next⟩
  | none => ⟨th.place.next w r, none⟩

/-! ### Private memory -/

abbrev Memory := Private EnvIdx PageNo Page

def Memory.read (I : Memory) (e : EnvIdx) (va : Word) : Option Byte :=
  (I e (pageOf va)).map fun x => x.data.byte (pgoff va)

def Memory.Writable (I : Memory) (e : EnvIdx) (va : Word) : Prop :=
  ∃ x, I e (pageOf va) = some x ∧ x.writable = true

/-- What a step looks like from outside. -/
inductive Occurs where
  | quiet
  -- a load and its value, if it has one; a store; a store that `pgfault` does not help
  | read (e : EnvIdx) (va : Word) (b : Option Byte)
  | write (e : EnvIdx) (va : Word) (b : Byte)
  | refused (e : EnvIdx) (va : Word)
  -- a zeroed page; a new environment; a page of `e` for `child`; `child` may run
  | zeroed (e : EnvIdx) (p : PageNo)
  | born (child : EnvIdx)
  | copied (e child : EnvIdx) (p : PageNo)
  | started (e child : EnvIdx)
  | gone (e : EnvIdx)
  -- a system call failed, and the library panics
  | broke (e : EnvIdx)

/-- `I` with page `p` of `e` replaced. -/
def Memory.setPage (I : Memory) (e : EnvIdx) (p : PageNo) (x : Option (Copy Page)) : Memory :=
  Function.update I e (Function.update (I e) p x)

/-- What private memory makes of a step. -/
def Memory.after (I : Memory) : Occurs → Memory
  | .write e va b => I.setPage e (pageOf va)
      ((I e (pageOf va)).map fun x => ⟨x.writable, x.data.setByte (pgoff va) b⟩)
  | .zeroed e p => I.setPage e p (some ⟨true, fun _ => 0⟩)
  | .born child => Function.update I child fun _ => none
  | .copied e child p => I.setPage child p (I e p)
  | .gone e => Function.update I e fun _ => none
  | _ => I

/-- The child has a page wherever the parent has one below `USTACKTOP`, with the same right to write
    to it. -/
def Memory.AllCopied (I : Memory) (e child : EnvIdx) : Prop :=
  ∀ pn < pgnum ustacktop, ((I child (pageOf (Fork.pageVa pn))).map Copy.writable) =
    (I e (pageOf (Fork.pageVa pn))).map Copy.writable

/-- The step is one that private memory would take: a load gets the value there, and fails where
    there is no page; so does a store on a page that is not writable; a child that may run got all
    the pages; nothing else fails. -/
def Memory.Allows (I : Memory) : Occurs → Prop
  | .read e va b => b = I.read e va
  | .write e va _ => I.Writable e va
  | .refused e va => ¬ I.Writable e va
  | .started e child => I.AllCopied e child
  | .broke _ => False
  | _ => True

/-- Private memory would take all of these steps, one after the other. -/
def Memory.Follows : Memory → List Occurs → Prop
  | _, [] => True
  | I, o :: os => I.Allows o ∧ Memory.Follows (I.after o) os

/-! ### The system -/

structure Sys where
  kern : KState
  threads : EnvIdx → Thread

/-- What an environment may do next; `go` is the next step of `fork` or `pgfault`. -/
inductive Act where
  | load (va : Word)
  | store (va : Word) (b : Byte)
  | fork (first : Bool)
  | go
  | exit
  | yield

def Sys.setThread (S : Sys) (e : EnvIdx) (th : Thread) : Sys :=
  { S with threads := Function.update S.threads e th }

def idle : Thread := ⟨.program, none⟩

/-- `e` stores a byte on the page with frame `f`. -/
def Sys.storeTo (S : Sys) (f : Nat) (va : Word) (b : Byte) : Sys :=
  { S with kern := S.kern.setFrame f ((S.kern.mem f).setByte (pgoff va) b) }

/-- How a system call of `fork` that returned `r` looks, when it was made in state `s`. Where the
    parent still had the page to itself, it is shared as soon as the parent's own entry is changed;
    otherwise that happens with the child's entry. -/
def Place.occurs (s : KState) (e : EnvIdx) (r : Except Err Word) : Place → Occurs
  | .handler => match r with
    | .error _ => .broke e
    | .ok _ => .zeroed e (pageOf Fork.uxstackPage)
  | .exofork => match r with
    | .error _ => .broke e
    | .ok id => if id.slt 0 ∨ id = 0 then .broke e else .born (envx id)
  | .dup envid pn pte =>
    if pte &&& pteShare ≠ 0 then .quiet
    else if pte &&& pteW ≠ 0 ∨ pte &&& pteCow ≠ 0 then
      match r with
      | .error _ => .broke e
      | .ok _ =>
        if pteOf s e (Fork.pageVa pn) &&& pteW ≠ 0 then .quiet
        else .copied e (envx envid) (pageOf (Fork.pageVa pn))
    else .copied e (envx envid) (pageOf (Fork.pageVa pn))
  | .own envid pn was => match r with
    | .error _ => .broke e
    | .ok _ => if was &&& pteW ≠ 0 then .copied e (envx envid) (pageOf (Fork.pageVa pn)) else .quiet
  | .stack envid => match r with
    | .error _ => .broke e
    | .ok _ => .zeroed (envx envid) (pageOf Fork.uxstackPage)
  | .childUpcall _ => match r with
    | .error _ => .broke e
    | .ok _ => .quiet
  | .start envid => match r with
    | .error _ => .broke e
    | .ok _ => .started e (envx envid)
  | _ => .quiet

def Thread.occurs (s : KState) (e : EnvIdx) (r : Except Err Word) (th : Thread) : Occurs :=
  match th.fault with
  | some _ => match r with
    | .error _ => .broke e
    | .ok _ => .quiet
  | none => th.place.occurs s e r

/-- The page whose entry a thread is about to have copied. -/
def Place.page : Place → Nat
  | .dup _ pn _ => pn
  | _ => 0

/-- A system call returned `r` in state `t`. A new environment starts in the program. -/
def Sys.answer (S : Sys) (e : EnvIdx) (r : Except Err Word) (t : KState) : Sys × Occurs :=
  let th := S.threads e
  let o := th.occurs S.kern e r
  let threads := Function.update S.threads e
    (th.next (pteOf S.kern e (Fork.pageVa th.place.page)) r)
  match o with
  | .born child => (⟨t, Function.update threads child idle⟩, o)
  | _ => (⟨t, threads⟩, o)

/-- A step of `fork` or `pgfault` between two system calls. -/
def Sys.advance (S : Sys) (c : CpuIdx) (e : EnvIdx) : Option (Sys × Occurs) :=
  let th := S.threads e
  match th.fault with
  | some (.copy addr k) =>
    -- one byte of `memmove(addr, PFTEMP, PGSIZE)`
    match userAccess S.kern c userRead (pftemp + BitVec.ofNat 32 k),
        userAccess S.kern c userWrite (addr + BitVec.ofNat 32 k) with
    | some f, some g =>
      some ((S.storeTo g (addr + BitVec.ofNat 32 k) ((S.kern.mem f).byte k)).setThread e
        ⟨th.place, some (.copy addr (k + 1))⟩, .quiet)
    | _, _ => some (S.setThread e ⟨.panicked, none⟩, .broke e)
  | some _ => none
  | none =>
    match th.place with
    | .scan envid pn =>
      if pn < pgnum ustacktop then
        let addr := Fork.pageVa pn
        if pdeAt S.kern (some e) (pdx addr) &&& pteP ≠ 0 ∧ pteOf S.kern e addr &&& pteP ≠ 0 ∧
            pteOf S.kern e addr &&& pteU ≠ 0 then
          some (S.setThread e ⟨.enter envid pn, none⟩, .quiet)
        else some (S.setThread e ⟨.scan envid (pn + 1), none⟩, .quiet)
      else some (S.setThread e ⟨.stack envid, none⟩, .quiet)
    | .enter envid pn =>
      some (S.setThread e ⟨.dup envid pn (pteOf S.kern e (Fork.pageVa pn)), none⟩, .quiet)
    | _ => none

/-- Where a thread loads and stores: the program and `fork` anywhere below `UTOP`, `pgfault`, apart
    from the page that it copies, on its exception stack. -/
def Thread.Reaches (th : Thread) (va : Word) : Prop :=
  th.place ≠ .panicked ∧ va < utop ∧ (th.fault = none ∨ ustacktop ≤ va)

instance (th : Thread) (va : Word) : Decidable (th.Reaches va) :=
  inferInstanceAs (Decidable (_ ∧ _ ∧ _))

/-- One step of environment `e` on CPU `c`. -/
def Sys.act (upcall : Word) (c : CpuIdx) (e : EnvIdx) (S : Sys) : Act → Option (Sys × Occurs)
  | .load va =>
    let th := S.threads e
    if th.Reaches va then
      match userAccess S.kern c userRead va with
      | some f => some (S, .read e va (some ((S.kern.mem f).byte (pgoff va))))
      -- a page fault that is not `FEC_WR`
      | none => some (S.setThread e ⟨.panicked, th.fault⟩, .read e va none)
    else none
  | .store va b =>
    let th := S.threads e
    if th.Reaches va then
      match userAccess S.kern c userWrite va with
      | some f => some (S.storeTo f va b, .write e va b)
      | none =>
        if pteOf S.kern e va &&& pteCow = 0 then
          some (S.setThread e ⟨.panicked, th.fault⟩, .refused e va)
        else if va < ustacktop then
          some (S.setThread e ⟨th.place, some (.map (rounddown va))⟩, .quiet)
        -- nothing above is copy-on-write
        else none
    else none
  | .fork first =>
    if S.threads e = idle then
      some (S.setThread e ⟨if first then .handler else .exofork, none⟩, .quiet)
    else none
  | .go =>
    if (S.threads e).place = .panicked then none
    else
      match (S.threads e).request with
      | some q =>
        match perform upcall c q S.kern with
        | .ok r t => some (S.answer e r t)
        | .error _ _ => none
      | none => S.advance c e
  | .exit =>
    match sysEnvDestroy c 0 S.kern with
    | .error .leave t => some (⟨t, Function.update S.threads e idle⟩, .gone e)
    | _ => none
  | .yield => none

/-- A step of what CPU `c` runs. -/
def Sys.user (upcall : Word) (c : CpuIdx) (a : Act) (S : Sys) : Option (Sys × Occurs) :=
  match S.kern.curenv c with
  | none => none
  | some e => if (S.kern.cpus c).mode = .user then S.act upcall c e a else none

/-- One step of CPU `c`: an interrupt that makes it yield, or a step of what it runs. -/
def Sys.step (upcall : Word) (c : CpuIdx) (a : Act) (S : Sys) : Option (Sys × Occurs) :=
  match a with
  | .yield =>
    if (S.kern.cpus c).mode = .absent then none
    else (enter (schedYield c) S.kern).map fun t => ({ S with kern := t }, .quiet)
  | a => S.user upcall c a

structure Label where
  cpu : CpuIdx
  act : Act
  occurs : Occurs

def Step (upcall : Word) (S : Sys) (l : Label) (T : Sys) : Prop :=
  S.step upcall l.cpu l.act = some (T, l.occurs)

/-- `n` pages are free. -/
def PagesFree (s : KState) (n : Nat) : Prop :=
  ∃ L, Chain (fun f => (s.pages f).ppLink) s.pageFreeList L ∧ n ≤ L.length

/-- There is memory for what a system call allocates. -/
def Request.Affordable (s : KState) (e : EnvIdx) : Request → Prop
  | .map _ dstenvid dstva _ => ∀ dst, lookupEnv s e dstenvid true = some dst →
      PagesFree s (tablesMissing s dst dstva)
  | .alloc envid va _ => ∀ dst, lookupEnv s e envid true = some dst →
      PagesFree s (1 + tablesMissing s dst va)
  | .exofork => PagesFree s 1 ∧ s.envFreeList ≠ none
  | _ => True

/-- Memory is not exhausted in this step. -/
def Affords (S : Sys) (l : Label) : Prop :=
  ∀ e q, l.act = .go → S.kern.curenv l.cpu = some e → (S.threads e).request = some q →
    q.Affordable S.kern e

/-- The page that a system call maps has a counter that can take one more. -/
def Request.Counted (s : KState) (e : EnvIdx) : Request → Prop
  | .map srcva _ _ _ => ∀ f, mappedAt s e srcva = some f → (s.pages f).ppRef ≠ 65535
  | _ => True

/-- What the code does not check in this step: `pgfault` finds `PFTEMP` unused when a store faults on
    a page that is copy-on-write, and `sys_page_map` counts no `pp_ref` over its end. -/
structure Spares (S : Sys) (l : Label) : Prop where
  temp : ∀ e va b, l.act = .store va b → S.kern.curenv l.cpu = some e →
    userAccess S.kern l.cpu userWrite va = none → pteOf S.kern e va &&& pteCow ≠ 0 →
    mappedAt S.kern e pftemp = none
  counted : ∀ e q, l.act = .go → S.kern.curenv l.cpu = some e →
    (S.threads e).request = some q → q.Counted S.kern e

/-! ### What the kernel's tables say -/

/-- The frame that an entry gives to user code, and the right it gives. -/
def entryAccess (w : Word) : Option (Nat × Access) :=
  if w &&& pteP ≠ 0 ∧ w &&& pteU ≠ 0 then
    some (pgnum w, if w &&& pteW ≠ 0 then .own else if w &&& pteCow ≠ 0 then .cow else .readOnly)
  else none

/-- The user pages of all environments. -/
def frames (s : KState) : Frames EnvIdx PageNo Nat Page where
  slot e p := entryAccess (pteAt s (some e) p.1 p.2)
  data := s.mem

/-- Private memory that starts with what everybody finds. -/
def memoryOf (s : KState) : Memory := (frames s).shown

/-- What a load by `e` at `va` finds. -/
def finds (s : KState) (e : EnvIdx) (va : Word) : Option Byte :=
  (s.envs e).envPgdir.bind fun d => (userReads s d va).map fun f => (s.mem f).byte (pgoff va)

/-- The page tables below `UTOP` are open to user code; the entries in them decide. -/
def TablesOpen (s : KState) : Prop :=
  ∀ e d i, (s.envs e).envPgdir = some d → i < utopPdx → s.mem d i &&& pteP ≠ 0 →
    s.mem d i &&& userWrite = userWrite

/-- A frame is found at so few addresses that its counter can take one more at each of them in all
    environments. -/
def FewAliases (s : KState) : Prop :=
  ∀ f, ∃ V : Finset PageNo, V.card ≤ 60 ∧
    ∀ e i j, target s (.pte e i j) = some f → (i, j) ∈ V

/-- What CPUs run is marked as running. -/
def Awake (s : KState) : Prop :=
  ∀ k e, (s.cpus k).mode = .user → s.curenv k = some e → (s.envs e).envStatus = .running

/-- The page lies above the stack, where `fork` copies nothing. -/
def Above (p : PageNo) : Prop := pgnum ustacktop ≤ pgnum (pgaddr p.1 p.2)

/-- Nobody shares a page that it may write to, or has it at two addresses. -/
def Alone (s : KState) : Prop :=
  ∀ e p f, (frames s).slot e p = some (f, .own) → ∀ e' p' a, (frames s).slot e' p' = some (f, a) →
    e' = e ∧ p' = p

/-- The state in which the programs start: a state of the kernel in which nobody shares a writable
    page, and no page is marked `PTE_SHARE`. What is present below `UTOP` is open to user code. -/
structure Launched (S : Sys) : Prop where
  inv : Inv True S.kern
  exclusive : Exclusive Every S.kern
  awake : Awake S.kern
  tables : TablesOpen S.kern
  alone : Alone S.kern
  user : ∀ e i j, pteAt S.kern (some e) i j &&& pteP ≠ 0 → pteAt S.kern (some e) i j &&& pteU ≠ 0
  notShared : ∀ e i j, pteAt S.kern (some e) i j &&& pteShare = 0
  threads : ∀ e, S.threads e = idle

/-- The programs start clear of what `Spares` excludes, and they stay so: `PFTEMP` is left to
    `pgfault` (`inc/memlayout.h`), a frame is found at few addresses, and the pages above `USTACKTOP`
    are not copy-on-write. -/
structure Reserved (s : KState) : Prop where
  temp : ∀ e, mappedAt s e pftemp = none
  few : FewAliases s
  above : ∀ e i j, Above (i, j) → pteAt s (some e) i j &&& pteCow = 0

end CowFork

end Jos
