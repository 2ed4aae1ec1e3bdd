import Jos.Lib.Hoare
import Jos.Mmu

/-!
  The state of the machine and of the kernel.

  Physical memory holds the page directories, the page tables and the user pages as words. The
  kernel's own data (`pages`, `envs`, `cpus` and its static variables) is kept as typed fields. The
  translations that each CPU may have cached are recorded along with every write to memory. -/

namespace Jos

/-- Registers as pushed by `pusha`. -/
structure PushRegs where
  regEdi : Word
  regEsi : Word
  regEbp : Word
  regOesp : Word
  regEbx : Word
  regEdx : Word
  regEcx : Word
  regEax : Word
  deriving DecidableEq

structure Trapframe where
  tfRegs : PushRegs
  tfEs : BitVec 16
  tfDs : BitVec 16
  tfTrapno : Word
  tfErr : Word
  tfEip : Word
  tfCs : BitVec 16
  tfEflags : Word
  tfEsp : Word
  tfSs : BitVec 16
  deriving DecidableEq

def PushRegs.zero : PushRegs := ⟨0, 0, 0, 0, 0, 0, 0, 0⟩

def Trapframe.zero : Trapframe := ⟨.zero, 0, 0, 0, 0, 0, 0, 0, 0, 0⟩

/-- The frame with another saved `eax`. -/
def Trapframe.withEax (tf : Trapframe) (v : Word) : Trapframe :=
  { tf with tfRegs := { tf.tfRegs with regEax := v } }

/-- Kernel error codes (`inc/error.h`). -/
inductive Err where | badEnv | inval | noMem | noFreeEnv | fault | ipcNotRecv
  deriving DecidableEq

/-- The value a system call returns for an error: minus its code. -/
def Err.code : Err → Word
  | .badEnv => -2
  | .inval => -3
  | .noMem => -4
  | .noFreeEnv => -5
  | .fault => -6
  | .ipcNotRecv => -7

inductive EnvStatus where | free | dying | runnable | running | notRunnable
  deriving DecidableEq

inductive CpuStatus where | unused | started | halted
  deriving DecidableEq

/-- Where a CPU is while it does not execute kernel code. -/
inductive Mode where
  | absent
  | starting -- an application processor waiting for the kernel lock in `mp_main`
  | user
  | halted
  deriving DecidableEq

abbrev nenv : Nat := 1024

/-- Index of an environment in `envs`. -/
abbrev EnvIdx := Fin 1024

/-- Index of a CPU in `cpus`. -/
abbrev CpuIdx := Fin 8

instance neZeroCpuIdx : NeZero 8 := ⟨by decide⟩

/-- Index part of an environment id. -/
def envx (envid : Word) : EnvIdx := Fin.ofNat 1024 envid.toNat

structure PageInfo where
  ppLink : Option Nat
  ppRef : BitVec 16
  deriving DecidableEq

/-- `struct Env`. `envPgdir` is the frame of the page directory; `none` is the null pointer. -/
structure Env where
  envTf : Trapframe
  envLink : Option EnvIdx
  envId : Word
  envParentId : Word
  envStatus : EnvStatus
  envRuns : Word
  envCpunum : CpuIdx
  envPgdir : Option Nat
  envPgfaultUpcall : Word
  envIpcRecving : Bool
  envIpcDstva : Word
  envIpcValue : Word
  envIpcFrom : Word
  envIpcPerm : Word
  deriving DecidableEq

structure CpuInfo where
  cpuStatus : CpuStatus
  cpuEnv : Option EnvIdx
  mode : Mode
  deriving DecidableEq

/-- The translations from page numbers to frames that a CPU may have cached, and those of them
    through which user code may write. -/
structure Tlb where
  maps : Nat → Nat → Bool
  writes : Nat → Nat → Bool

instance : CoeFun Tlb fun _ => Nat → Nat → Bool := ⟨Tlb.maps⟩

structure KState where
  npages : Nat
  kernPgdir : Nat
  pages : Nat → PageInfo
  pageFreeList : Option Nat
  envs : EnvIdx → Env
  envFreeList : Option EnvIdx
  cpus : CpuIdx → CpuInfo
  /-- Frame of the page directory each CPU has loaded. -/
  cr3 : CpuIdx → Nat
  mem : Nat → Page
  tlb : CpuIdx → Tlb
  /-- `boot_alloc`'s next free address, and the addresses of `pages` and `envs`. -/
  nextfree : Word
  pagesAt : Word
  envsAt : Word
  /-- Start of the next MMIO reservation. -/
  mmioBase : Word
  userMemCheckAddr : Word

/-- Why a kernel function did not return: the CPU left the kernel, the kernel panicked, or it
    entered the monitor, which no command ever leaves. -/
inductive Stop where | leave | panic | monitor
  deriving DecidableEq

/-- Kernel code. -/
abbrev K := EStateM Stop KState

abbrev panic {α : Type} : K α := throw .panic

/-! ### Memory -/

/-- The frame that the page tables under directory `pd` give for page `v`, if both levels are
    present. -/
def walk (mem : Nat → Page) (pd v : Nat) : Option Nat :=
  (entryFrame (mem pd (Fin.ofNat 1024 (v / 1024)))).bind fun t =>
    entryFrame (mem t (Fin.ofNat 1024 v))

def userRead : Word := pteP ||| pteU
def userWrite : Word := pteP ||| pteU ||| pteW

/-- The frame that user code reaches through entry `j` of table `i` with the rights `need` at both
    levels. -/
def userWalk (mem : Nat → Page) (pd : Nat) (need : Word) (i j : Idx) : Option Nat :=
  let pde := mem pd i
  let pte := mem (pgnum pde) j
  if pde &&& need = need ∧ pte &&& need = need then some (pgnum pte) else none

/-- The frame in which user code may write page `v`. -/
def writeWalk (mem : Nat → Page) (pd v : Nat) : Option Nat :=
  userWalk mem pd userWrite (Fin.ofNat 1024 (v / 1024)) (Fin.ofNat 1024 v)

/-- Where an access to page `v` goes for which the page tables say `tables`: a CPU may as well use a
    translation `via` that it has in its `cache`. -/
def viaTlb (cache : Nat → Nat → Bool) (via : Option Nat) (v : Nat) (tables : Option Nat) :
    Option Nat :=
  match via with
  | some f => if cache v f then some f else tables
  | none => tables

namespace KState

/-- Every CPU may cache what its page directory gives now. -/
def fill (s : KState) : KState :=
  { s with tlb := fun k =>
      ⟨fun v f => s.tlb k v f || decide (walk s.mem (s.cr3 k) v = some f),
        fun v f => (s.tlb k).writes v f || decide (writeWalk s.mem (s.cr3 k) v = some f)⟩ }

/-- Replace the contents of frame `f`. -/
def setFrame (s : KState) (f : Nat) (p : Page) : KState :=
  fill { s with mem := Function.update s.mem f p }

/-- Write one word of frame `f`. -/
def poke (s : KState) (f : Nat) (i : Idx) (w : Word) : KState :=
  s.setFrame f (Function.update (s.mem f) i w)

/-- Load a page directory, which drops what this CPU had cached. -/
def lcr3 (s : KState) (c : CpuIdx) (pd : Nat) : KState :=
  { s with
    cr3 := Function.update s.cr3 c pd
    tlb := Function.update s.tlb c
      ⟨fun v f => decide (walk s.mem pd v = some f),
        fun v f => decide (writeWalk s.mem pd v = some f)⟩ }

/-- Drop what this CPU has cached for the page of `va`; it may cache it again at once. -/
def invlpg (s : KState) (c : CpuIdx) (va : Word) : KState :=
  fill { s with
    tlb := Function.update s.tlb c
      ⟨fun v f => s.tlb c v f && decide (v ≠ pgnum va),
        fun v f => (s.tlb c).writes v f && decide (v ≠ pgnum va)⟩ }

def setEnv (s : KState) (e : EnvIdx) (v : Env) : KState :=
  { s with envs := Function.update s.envs e v }

def setPage (s : KState) (f : Nat) (p : PageInfo) : KState :=
  { s with pages := Function.update s.pages f p }

def setCpu (s : KState) (c : CpuIdx) (v : CpuInfo) : KState :=
  { s with cpus := Function.update s.cpus c v }

/-- The environment that CPU `c` is running. -/
def curenv (s : KState) (c : CpuIdx) : Option EnvIdx := (s.cpus c).cpuEnv

def setCurenv (s : KState) (c : CpuIdx) (e : Option EnvIdx) : KState :=
  s.setCpu c { s.cpus c with cpuEnv := e }

/-- The word that entry `(t, i)` holds. -/
def entry (s : KState) (p : Nat × Idx) : Word := s.mem p.1 p.2

/-- What CPU `c` may have cached of page `v` for writing. User code may write nothing from `UTOP` up,
    so of those pages it caches nothing. -/
def cachedWrite (s : KState) (c : CpuIdx) (v f : Nat) : Bool :=
  decide (v < pgnum utop) && s.tlb c v f && (s.tlb c).writes v f

/-! What each update leaves alone. -/

section

variable (s : KState) (f : Nat) (p : Page) (i : Idx) (w : Word) (c : CpuIdx) (va : Word)

/-- Writing a frame changes memory alone. -/
@[simp] theorem setFrame_mem : (s.setFrame f p).mem = Function.update s.mem f p := rfl
@[simp] theorem setFrame_npages : (s.setFrame f p).npages = s.npages := rfl
@[simp] theorem setFrame_kernPgdir : (s.setFrame f p).kernPgdir = s.kernPgdir := rfl
@[simp] theorem setFrame_pages : (s.setFrame f p).pages = s.pages := rfl
@[simp] theorem setFrame_pageFreeList : (s.setFrame f p).pageFreeList = s.pageFreeList := rfl
@[simp] theorem setFrame_envs : (s.setFrame f p).envs = s.envs := rfl
@[simp] theorem setFrame_cpus : (s.setFrame f p).cpus = s.cpus := rfl
@[simp] theorem setFrame_cr3 : (s.setFrame f p).cr3 = s.cr3 := rfl
@[simp] theorem setFrame_nextfree : (s.setFrame f p).nextfree = s.nextfree := rfl

/-- A word is written by writing the page with that word in it. -/
theorem poke_eq : s.poke f i w = s.setFrame f (Function.update (s.mem f) i w) := rfl

/-- Another frame keeps its contents. -/
theorem poke_mem_of_ne {g : Nat} (h : g ≠ f) : (s.poke f i w).mem g = s.mem g := by
  rw [poke_eq, setFrame_mem, Function.update_of_ne h]

/-- In its frame a write changes one word. -/
theorem poke_mem_self (j : Idx) :
    (s.poke f i w).mem f j = if j = i then w else s.mem f j := by
  rw [poke_eq, setFrame_mem, Function.update_self, Function.update_apply]

/-- Flushing a translation changes no memory and no list. -/
@[simp] theorem invlpg_mem : (s.invlpg c va).mem = s.mem := rfl
@[simp] theorem invlpg_pages : (s.invlpg c va).pages = s.pages := rfl
@[simp] theorem invlpg_pageFreeList : (s.invlpg c va).pageFreeList = s.pageFreeList := rfl

end

end KState

/-! ### Access through the kernel's map of physical memory -/

/-- `KADDR`, used to reach memory: the frame of a physical address. It panics on a frame that does
    not exist. The 256MB window above `KERNBASE` maps frames below 65536 only; beyond it the
    computed address wraps to one that the kernel does not map. -/
def kaddr (pa : Word) : K Nat := do
  let s ← get
  if s.npages ≤ pgnum pa ∨ 65536 ≤ pgnum pa then panic
  return pgnum pa

/-- `page2kva`, as the frame behind the address. -/
def page2kva (pp : Nat) : K Nat := kaddr (page2pa pp)

/-- `pa2page`. -/
def pa2page (pa : Word) : K Nat := do
  let s ← get
  if s.npages ≤ pgnum pa then panic
  return pgnum pa

end Jos
