import Jos.Trap

/-!
  Boot (`mem_init` and `page_init` of `kern/pmap.c`, `env_init` and `env_create` of `kern/env.c`,
  `i386_init` and `boot_aps` of `kern/init.c`).

  The self tests of `mem_init` are kept as far as their effects outlive them: the order in which
  they leave the free list, the page table they create for the MMIO region, and the accesses to
  every free page. -/

namespace Jos

/-- The part of an ELF program header that `load_icode` reads. -/
structure Proghdr where
  pType : Word
  pOffset : Word
  pVa : Word
  pFilesz : Word
  pMemsz : Word

/-- `ELF_PROG_LOAD`. -/
def elfProgLoad : Word := 1

/-- An ELF binary linked into the kernel. The user linker script places every loadable segment in
    user memory. -/
structure UserImage where
  magicOk : Bool
  eEntry : Word
  phdrs : List Proghdr
  file : Nat → Byte
  user : ∀ ph ∈ phdrs, ph.pType = elfProgLoad → ph.pVa.toNat + ph.pMemsz.toNat ≤ utop.toNat

/-- What the kernel finds at boot: CMOS memory sizes in KB, where its image ends, its stacks, the
    CPUs, and the programs to start. -/
structure BootParams where
  basemem : BitVec 16
  extmem : BitVec 16
  ext16mem : BitVec 16
  kernEnd : Word
  bootstack : Word
  percpuKstacks : CpuIdx → Word
  bsp : CpuIdx
  ncpu : Nat
  lapicaddr : Word
  images : List UserImage
  mem : Nat → Page
  /-- The kernel is linked at 1MB, and its image lies in the 4MB that the boot page table maps. -/
  linked : 0xF0100000 ≤ kernEnd ∧ kernEnd ≤ 0xF0400000
  /-- The stacks are page-aligned (`entry.S`, `mpconfig.c`). -/
  aligned : pgoff bootstack = 0 ∧ ∀ i, pgoff (percpuKstacks i) = 0

/-- `i386_detect_memory`: the number of physical pages. -/
def detectMemory (p : BootParams) : Nat :=
  let ext16mem := p.ext16mem.toNat * 64
  let totalmem :=
    if ext16mem ≠ 0 then 16 * 1024 + ext16mem
    else if p.extmem.toNat ≠ 0 then 1 * 1024 + p.extmem.toNat
    else p.basemem.toNat
  totalmem / (pgsize / 1024)

/-- `PADDR`, as a frame number. -/
def paddrFrame (kva : Word) : Nat := pgnum (kva - kernbase)

/-- `boot_alloc`. -/
def bootAlloc (p : BootParams) (n : Word) : K Word := do
  let s ← get
  let result := if s.nextfree = 0 then roundup p.kernEnd else s.nextfree
  let next := roundup (result + n)
  set { s with nextfree := next }
  if BitVec.ofNat 32 (s.npages * pgsize) < next - kernbase then panic
  return result

/-- Pages that `page_init` keeps in use: page 0, the IO hole with the kernel and its arrays behind
    it, and the page of the AP boot code. -/
def pageReserved (kernelEndPage i : Nat) : Bool :=
  decide (i = 0) || (decide (160 ≤ i) && decide (i < kernelEndPage)) || decide (i = 7)

def pageInitStep (kernelEndPage : Nat) (s : KState) (i : Nat) : KState :=
  if pageReserved kernelEndPage i then s.setPage i ⟨none, 1⟩
  else { s.setPage i ⟨s.pageFreeList, 0⟩ with pageFreeList := some i }

/-- `page_init`. -/
def pageInit (p : BootParams) : K Unit := do
  let kernelEnd ← bootAlloc p 0
  modify fun s => (List.range s.npages).foldl (pageInitStep (paddrFrame kernelEnd)) s

/-- The first `fuel` pages of the free list from `h`. -/
def freeListFrom (s : KState) : Nat → Option Nat → List Nat
  | 0, _ => []
  | _, none => []
  | fuel + 1, some f => f :: freeListFrom s fuel (s.pages f).ppLink

/-- Link the pages of `l` into a list, in order. -/
def linkList (s : KState) : List Nat → KState
  | [] => { s with pageFreeList := none }
  | f :: l =>
    let s := linkList s l
    { s.setPage f { s.pages f with ppLink := s.pageFreeList } with pageFreeList := some f }

/-- Pages in the first 4MB of physical memory. -/
def lowPage (f : Nat) : Bool := decide ((pdx (page2pa f)).val < 1)

/-- `memset(page2kva(pp), 0x97, 128)`. -/
def scribble (pp : Nat) : K Unit := do
  let f ← page2kva pp
  modify fun s => s.setFrame f fun i => if i.val < 32 then 0x97979797 else s.mem f i

/-- `check_page_free_list`: moves the low pages to the front when only they are mapped, and writes
    to every free page that is mapped. -/
def checkPageFreeList (onlyLow : Bool) : K Unit := do
  let s ← get
  let l := freeListFrom s s.npages s.pageFreeList
  if onlyLow then
    set (linkList s (l.filter lowPage ++ l.filter fun f => !lowPage f))
    (l.filter lowPage).forM scribble
  else l.forM scribble

/-- A page that a self test takes; it asserts that there is one. -/
def takePage : K Nat := do
  match ← pageAlloc false with
  | none => panic
  | some f => return f

/-- `*pgdir_walk(kern_pgdir, va, 0) = 0`. -/
def clearKernPte (va : Word) : K Unit := do
  match ← pgdirWalk (← get).kernPgdir va false with
  | none => panic
  | some pte => modify fun s => s.poke pte.1 pte.2 0

/-- `check_page`: takes three pages and gives them back in the order it took them, then tries
    `mmio_map_region` and clears the entries it made. -/
def checkPage : K Unit := do
  let pp0 ← takePage
  let pp1 ← takePage
  let pp2 ← takePage
  pageFree pp0
  pageFree pp1
  pageFree pp2
  let mm1 ← mmioMapRegion 0 4097
  let mm2 ← mmioMapRegion 0 4096
  clearKernPte mm1
  clearKernPte (mm1 + BitVec.ofNat 32 pgsize)
  clearKernPte mm2

/-- `check_page_installed_pgdir`: the pages it takes come back with the last two exchanged. -/
def checkPageInstalledPgdir : K Unit := do
  let pp0 ← takePage
  let pp1 ← takePage
  let pp2 ← takePage
  pageFree pp1
  pageFree pp2
  pageFree pp0

/-- `mem_init_mp`: one stack per CPU, with a gap below each. -/
def memInitMp (p : BootParams) : K Unit :=
  (List.finRange 8).forM fun i => do
    let s ← get
    bootMapRegion s.kernPgdir
      (kstacktop - BitVec.ofNat 32 ((kstksize + kstkgap) * i.val) - BitVec.ofNat 32 kstksize)
      (BitVec.ofNat 32 kstksize) (p.percpuKstacks i - kernbase) pteW

/-- `sizeof(struct PageInfo)` and `sizeof(struct Env)`. -/
def sizeofPageInfo : Nat := 8
def sizeofEnv : Nat := 124

/-- The start of `mem_init`: what `boot_alloc` provides, the kernel's page directory and the arrays
    `pages` and `envs`. -/
def memInitArrays (p : BootParams) : K Unit := do
  modify fun s => { s with npages := detectMemory p }
  let kernPgdirAt ← bootAlloc p (BitVec.ofNat 32 pgsize)
  let kpd := paddrFrame kernPgdirAt
  modify fun s => { s with kernPgdir := kpd }
  modify fun s => s.setFrame kpd fun _ => 0
  modify fun s => s.poke kpd uvptPdx (page2pa kpd ||| pteU ||| pteP)
  let s ← get
  let pagesAt ← bootAlloc p (BitVec.ofNat 32 (s.npages * sizeofPageInfo))
  modify fun s => { s with pagesAt := pagesAt, pages := fun _ => ⟨none, 0⟩ }
  let envsAt ← bootAlloc p (BitVec.ofNat 32 (nenv * sizeofEnv))
  modify fun s => { s with envsAt := envsAt }

/-- The mappings that `mem_init` makes in the kernel's page directory. -/
def memInitMaps (p : BootParams) : K Unit := do
  let s ← get
  -- `page2pa(pages)` is the physical address of page 0, not of the array
  bootMapRegion s.kernPgdir upages (BitVec.ofNat 32 ptsize) (page2pa 0) pteU
  bootMapRegion s.kernPgdir uenvs (BitVec.ofNat 32 ptsize) (s.envsAt - kernbase) pteU
  bootMapRegion s.kernPgdir (kstacktop - BitVec.ofNat 32 kstksize) (BitVec.ofNat 32 kstksize)
    (p.bootstack - kernbase) pteW
  bootMapRegion s.kernPgdir kernbase (0xFFFFFFFF - kernbase) 0 pteW
  memInitMp p

/-- `mem_init`. -/
def memInit (p : BootParams) : K Unit := do
  memInitArrays p
  pageInit p
  checkPageFreeList true
  checkPage
  memInitMaps p
  modify fun s => s.lcr3 p.bsp s.kernPgdir
  checkPageFreeList false
  checkPageInstalledPgdir

/-- A slot of `envs` after `env_init`; the free slots are linked in order. -/
def emptyEnv (e : EnvIdx) : Env where
  envTf := .zero
  envLink := if h : e.val + 1 < 1024 then some ⟨e.val + 1, h⟩ else none
  envId := 0
  envParentId := 0
  envStatus := .free
  envRuns := 0
  envCpunum := 0
  envPgdir := none
  envPgfaultUpcall := 0
  envIpcRecving := false
  envIpcDstva := 0
  envIpcValue := 0
  envIpcFrom := 0
  envIpcPerm := 0

/-- `env_init`. -/
def envInit : K Unit := modify fun s => { s with envs := emptyEnv, envFreeList := some 0 }

/-- The loop of `region_alloc` over the pages from `va` up to `last`. -/
def regionAllocLoop (c : CpuIdx) (e : EnvIdx) (last : Word) : Nat → Word → K Unit
  | 0, _ => return
  | fuel + 1, va => do
    if va < last then
      match ← pageAlloc false with
      | none => panic
      | some f =>
        match ← pageInsert c (← getPgdir e) f va (pteW ||| pteU) with
        | .error _ => panic
        | .ok () => regionAllocLoop c e last fuel (va + BitVec.ofNat 32 pgsize)
    else return

/-- `region_alloc`. -/
def regionAlloc (c : CpuIdx) (e : EnvIdx) (va len : Word) : K Unit :=
  regionAllocLoop c e (roundup (va + len)) (2 ^ 20) (rounddown va)

/-- The bytes of `file` from `off` on. -/
def fileBytes (file : Nat → Byte) (off n : Nat) : List Byte :=
  (List.range n).map fun i => file (off + i)

/-- Load one program header. -/
def loadSegment (c : CpuIdx) (e : EnvIdx) (file : Nat → Byte) (ph : Proghdr) : K Unit := do
  if ph.pType = elfProgLoad then
    if ph.pMemsz < ph.pFilesz then panic
    regionAlloc c e ph.pVa ph.pMemsz
    storeBytes c ph.pVa (fileBytes file ph.pOffset.toNat ph.pFilesz.toNat)
    storeBytes c (ph.pVa + ph.pFilesz)
      (List.replicate (ph.pMemsz - ph.pFilesz).toNat 0)

/-- `load_icode`. -/
def loadIcode (c : CpuIdx) (e : EnvIdx) (binary : UserImage) : K Unit := do
  if binary.magicOk = false then panic
  if binary.eEntry = 0 then panic
  modify fun s => s.setEnv e { s.envs e with
    envTf := { (s.envs e).envTf with tfEip := binary.eEntry } }
  let pd ← getPgdir e
  modify fun s => s.lcr3 c pd
  binary.phdrs.forM (loadSegment c e binary.file)
  regionAlloc c e (ustacktop - BitVec.ofNat 32 pgsize) (BitVec.ofNat 32 pgsize)

/-- `env_create`. -/
def envCreate (c : CpuIdx) (binary : UserImage) : K Unit := do
  match ← envAlloc 0 with
  | .error _ => panic
  | .ok e => loadIcode c e binary

/-- `lapic_init`, as far as it maps the device. -/
def lapicInit (p : BootParams) : K Unit := do
  if p.lapicaddr ≠ 0 then
    let _ ← mmioMapRegion p.lapicaddr 4096

/-- An application processor up to the point where it waits for the kernel lock. -/
def startAp (p : BootParams) (c : CpuIdx) : K Unit := do
  modify fun s => s.lcr3 c s.kernPgdir
  lapicInit p
  modify fun s => s.setCpu c { s.cpus c with cpuStatus := .started, mode := .starting }

/-- `boot_aps`. -/
def bootAps (p : BootParams) : K Unit :=
  ((List.finRange 8).filter fun c => c.val < p.ncpu ∧ c ≠ p.bsp).forM (startAp p)

/-- `i386_init`. -/
def i386Init (p : BootParams) : K Unit := do
  memInit p
  envInit
  modify fun s => s.setCpu p.bsp { s.cpus p.bsp with cpuStatus := .started }
  lapicInit p
  bootAps p
  p.images.forM (envCreate p.bsp)
  schedYield p.bsp

/-- The state in which the kernel's C code starts: static data is zero. -/
def startState (p : BootParams) : KState where
  npages := 0
  kernPgdir := 0
  pages _ := ⟨none, 0⟩
  pageFreeList := none
  envs := emptyEnv
  envFreeList := none
  cpus _ := ⟨.unused, none, .absent⟩
  cr3 _ := 0
  mem := p.mem
  tlb _ := ⟨fun _ _ => false, fun _ _ => false⟩
  nextfree := 0
  pagesAt := 0
  envsAt := 0
  mmioBase := mmiobase
  userMemCheckAddr := 0

/-- The state in which the boot processor first leaves the kernel, if boot gets there. -/
def boot (p : BootParams) : Option KState :=
  match i386Init p (startState p) with
  | .error .leave s => some s
  | _ => none

/-- A program that consists of its entry point; its code lies in no segment. -/
def demoImage (eEntry : Word) : UserImage where
  magicOk := true
  eEntry := eEntry
  phdrs := []
  file _ := 0
  user := by simp

/-- A machine with 128MB of memory and two CPUs, booted from the second, that starts two programs. -/
def demo : BootParams where
  basemem := 640
  extmem := 0
  ext16mem := 1792
  kernEnd := 0xF0200000
  bootstack := 0xF0110000
  percpuKstacks i := 0xF0180000 + BitVec.ofNat 32 (kstksize * i.val)
  bsp := 1
  ncpu := 2
  lapicaddr := 0
  images := [demoImage 0x800020, demoImage 0x800020]
  mem _ _ := 0
  linked := by decide
  aligned := by decide

end Jos
