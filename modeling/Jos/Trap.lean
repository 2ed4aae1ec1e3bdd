import Jos.Syscall

/-!
  Traps (`kern/trap.c`). Each trap runs from entry to the point where its CPU leaves the kernel. -/

namespace Jos

/-- Trap numbers that are dispatched on (`inc/trap.h`). -/
def tBrkpt : Word := 3
def tPgflt : Word := 14
def tSyscall : Word := 48
def irqTimer : Word := 32

/-- The vectors that external interrupts arrive on: timer, keyboard, serial, spurious, IDE and APIC
    error. -/
def irqVectors : List Word := [32, 33, 36, 39, 46, 51]

/-- An external interrupt is no fault, no breakpoint and no system call. -/
theorem ne_of_irq {n : Word} (h : n ∈ irqVectors) : n ≠ tPgflt ∧ n ≠ tBrkpt ∧ n ≠ tSyscall := by
  have hall : ∀ n ∈ irqVectors, n ≠ tPgflt ∧ n ≠ tBrkpt ∧ n ≠ tSyscall := by
    simp [irqVectors, tPgflt, tBrkpt, tSyscall]
  exact hall n h

/-- Fields of `struct UTrapframe`, as the words it consists of. -/
def utrapframe (faultVa : Word) (tf : Trapframe) : List Word :=
  [faultVa, tf.tfErr, tf.tfRegs.regEdi, tf.tfRegs.regEsi, tf.tfRegs.regEbp, tf.tfRegs.regOesp,
    tf.tfRegs.regEbx, tf.tfRegs.regEdx, tf.tfRegs.regEcx, tf.tfRegs.regEax, tf.tfEip, tf.tfEflags,
    tf.tfEsp]

/-- `sizeof(struct UTrapframe)`. -/
def utrapframeSize : Nat := 52

/-- Byte `k` of a word, little end first. -/
def byteOf (w : Word) (k : Nat) : Byte := w.extractLsb' (8 * k) 8

/-- The word with byte `k` replaced. -/
def withByte (w : Word) (k : Nat) (b : Byte) : Word :=
  (w &&& ~~~((0xFF : Word) <<< (8 * k))) ||| (b.zeroExtend 32 <<< (8 * k))

/-- The page with the byte at offset `off` replaced. -/
def Page.setByte (p : Page) (off : Nat) (b : Byte) : Page :=
  Function.update p (Fin.ofNat 1024 (off / 4)) (withByte (p (Fin.ofNat 1024 (off / 4))) (off % 4) b)

/-- The byte of the page at offset `off`. -/
def Page.byte (p : Page) (off : Nat) : Byte := byteOf (p (Fin.ofNat 1024 (off / 4))) (off % 4)

/-- Store a byte through the page tables loaded on `c`. -/
def storeByte (c : CpuIdx) (va : Word) (b : Byte) : K Unit := do
  let s ← get
  match walk s.mem (s.cr3 c) (pgnum va) with
  | none => panic
  | some f => set (s.setFrame f ((s.mem f).setByte (pgoff va) b))

/-- Store a list of bytes at consecutive addresses. -/
def storeBytes (c : CpuIdx) : Word → List Byte → K Unit
  | _, [] => return
  | va, b :: bs => do
    storeByte c va b
    storeBytes c (va + 1) bs

/-- The frame in which kernel code on `c` writes page `v`. -/
def writeFrame (s : KState) (c : CpuIdx) (inp : Input) (v : Nat) : Option Nat :=
  viaTlb (s.cachedWrite c) (inp.cached v) v (walk s.mem (s.cr3 c) v)

/-- Store a list of bytes at consecutive addresses, where what the CPU has cached may be used. -/
def storeBytesCached (c : CpuIdx) (inp : Input) : Word → List Byte → K Unit
  | _, [] => return
  | va, b :: bs => do
    let s ← get
    match writeFrame s c inp (pgnum va) with
    | none => panic
    | some f =>
      set (s.setFrame f ((s.mem f).setByte (pgoff va) b))
      storeBytesCached c inp (va + 1) bs

/-- Bytes of a list of words, as they lie in memory. -/
def wordBytes (ws : List Word) : List Byte :=
  ws.flatMap fun w => [byteOf w 0, byteOf w 1, byteOf w 2, byteOf w 3]

/-- Where the frame for a fault at `esp` is pushed: on the exception stack, below `esp` if the
    environment was running on it already. -/
def stacktop (esp : Word) : Word :=
  if uxstacktop - BitVec.ofNat 32 pgsize < esp ∧ esp < uxstacktop then esp else uxstacktop

/-- Address of the new `UTrapframe`; a word of scratch space stays free above it. -/
def utfAddr (esp : Word) : Word := stacktop esp - BitVec.ofNat 32 (utrapframeSize + 4)

/-- `page_fault_handler`. -/
def pageFaultHandler (c : CpuIdx) (inp : Input) (tf : Trapframe) : K Unit := do
  if tf.tfCs &&& 3 = 0 then panic
  let cur ← getCurenv c
  let s ← get
  if (s.envs cur).envPgfaultUpcall ≠ 0 then
    let utf := utfAddr tf.tfEsp
    userMemAssert c cur utf (BitVec.ofNat 32 (utrapframeSize + 4)) (pteU ||| pteW)
    storeBytesCached c inp utf (wordBytes (utrapframe inp.cr2 tf))
    modify fun s => s.setEnv cur { s.envs cur with
      envTf := { (s.envs cur).envTf with tfEip := (s.envs cur).envPgfaultUpcall, tfEsp := utf } }
    envRun c cur
  envDestroy c cur

/-- `trap_dispatch`. Only a trap from user mode has its saved frame in the environment. -/
def trapDispatch (c : CpuIdx) (inp : Input) (tf : Trapframe) : K Unit := do
  if tf.tfTrapno = tPgflt then pageFaultHandler c inp tf
  else if tf.tfTrapno = tBrkpt then throw .monitor
  else if tf.tfTrapno = tSyscall then
    let cur ← getCurenv c
    let r := tf.tfRegs
    let retCode ← syscall c inp r.regEax r.regEdx r.regEcx r.regEbx r.regEdi r.regEsi
    modify fun s => s.setEnv cur { s.envs cur with envTf := (s.envs cur).envTf.withEax retCode }
  else if tf.tfTrapno = irqTimer then schedYield c
  else if tf.tfCs = gdKt then panic
  else envDestroy c (← getCurenv c)

/-- What `trap` does once the trap has been handled and the kernel is still running. -/
def trapReturn (c : CpuIdx) : K Unit := do
  let s ← get
  match s.curenv c with
  | some cur => if (s.envs cur).envStatus = .running then envRun c cur else schedYield c
  | none => schedYield c

/-- The frame in which kernel code on `c` reads the byte at `va`. -/
def readFrame (s : KState) (c : CpuIdx) (inp : Input) (va : Word) : Option Nat :=
  viaTlb (s.tlb c) (inp.cached (pgnum va)) (pgnum va) (walk s.mem (s.cr3 c) (pgnum va))

/-- Kernel code reads the word at `va`. The last byte may lie on the next page. -/
def readWord (c : CpuIdx) (inp : Input) (va : Word) : K Word := do
  let s ← get
  if readFrame s c inp va = none ∨ readFrame s c inp (va + 3) = none then panic
  return inp.savedEbp va

/-- The rounds of `get_caller_pcs` from the frame pointer `ebp` on. A null pointer is below `ULIM`
    as well. -/
def getCallerPcs (c : CpuIdx) (inp : Input) : Nat → Word → K Unit
  | 0, _ => return
  | n + 1, ebp =>
    if ebp < ulim then return
    else do
      let _ ← readWord c inp (ebp + 4) -- the saved `%eip`, which is recorded
      getCallerPcs c inp n (← readWord c inp ebp)

/-- `trap`: an environment that was marked while it ran is freed, any other is saved. Taking the lock
    follows the frame pointers from `trap`'s caller on. `_alltraps` leaves `%ebp` alone, so that is
    user code; a CPU that was halted has 0 there (`sched_halt`). -/
def trap (c : CpuIdx) (inp : Input) (tf : Trapframe) : K Unit := do
  modify fun s => s.setCpu c { s.cpus c with cpuStatus := .started }
  if tf.tfCs &&& 3 = 3 then
    let cur ← getCurenv c
    getCallerPcs c inp inp.callers tf.tfRegs.regEbp
    let s ← get
    if (s.envs cur).envStatus = .dying then
      envFree c cur
      modify fun s => s.setCurenv c none
      schedYield c
    modify fun s => s.setEnv cur { s.envs cur with envTf := tf }
  trapDispatch c inp tf
  trapReturn c

end Jos
