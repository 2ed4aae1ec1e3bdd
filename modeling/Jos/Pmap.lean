import Jos.State

/-!
  Physical pages and page tables (`kern/pmap.c`).

  A pointer to a page-table entry is a frame and an index into it. `c` is the CPU that runs the
  code; `tlb_invalidate` looks at its `curenv`. -/

namespace Jos

/-- `page_alloc`: take the head of the free list, zero-filled on demand. -/
def pageAlloc (zero : Bool) : K (Option Nat) := do
  let s ← get
  match s.pageFreeList with
  | none => return none
  | some res =>
    set { s.setPage res { s.pages res with ppLink := none } with
          pageFreeList := (s.pages res).ppLink }
    if zero then
      let f ← page2kva res
      modify fun s => s.setFrame f fun _ => 0
    return some res

/-- `page_free`, with its two assertions. -/
def pageFree (pp : Nat) : K Unit := do
  let s ← get
  if (s.pages pp).ppRef ≠ 0 then panic
  if (s.pages pp).ppLink ≠ none then panic
  set { s.setPage pp { s.pages pp with ppLink := s.pageFreeList } with pageFreeList := some pp }

/-- `pp->pp_ref++` on the 16-bit counter. -/
def ppIncref (pp : Nat) : K Unit :=
  modify fun s => s.setPage pp { s.pages pp with ppRef := (s.pages pp).ppRef + 1 }

/-- `page_decref`: drop one reference, and free the page with the last one. -/
def pageDecref (pp : Nat) : K Unit := do
  modify fun s => s.setPage pp { s.pages pp with ppRef := (s.pages pp).ppRef - 1 }
  let s ← get
  if (s.pages pp).ppRef = 0 then pageFree pp

/-- The entry for `va` in the page table that the directory `pgdir` names for it. -/
def tableEntry (pgdir : Nat) (va : Word) : K (Option (Nat × Idx)) := do
  let s ← get
  let base ← kaddr (s.mem pgdir (pdx va))
  return some (base, ptx va)

/-- `pgdir_walk`: a new page table is zeroed, counted once, and entered with full permissions. -/
def pgdirWalk (pgdir : Nat) (va : Word) (create : Bool) : K (Option (Nat × Idx)) := do
  let s ← get
  if s.mem pgdir (pdx va) &&& pteP = 0 then
    if create then
      match ← pageAlloc true with
      | none => return none
      | some newPage =>
        ppIncref newPage
        modify fun s => s.poke pgdir (pdx va) (page2pa newPage ||| pteP ||| pteW ||| pteU)
        tableEntry pgdir va
    else return none
  else tableEntry pgdir va

/-- `tlb_invalidate`: flush the entry only if the tables being edited are those of this CPU. -/
def tlbInvalidate (c : CpuIdx) (pgdir : Nat) (va : Word) : K Unit := do
  let s ← get
  match s.curenv c with
  | none => set (s.invlpg c va)
  | some e => if (s.envs e).envPgdir = some pgdir then set (s.invlpg c va)

/-- `page_lookup`: the page mapped at `va` and where its entry is stored. -/
def pageLookup (pgdir : Nat) (va : Word) : K (Option (Nat × (Nat × Idx))) := do
  match ← pgdirWalk pgdir va false with
  | none => return none
  | some pte =>
    let s ← get
    if s.entry pte &&& pteP = 0 then return none
    let page ← pa2page (s.entry pte)
    return some (page, pte)

/-- `page_remove`: drop the reference, flush, and clear the entry, in this order. -/
def pageRemove (c : CpuIdx) (pgdir : Nat) (va : Word) : K Unit := do
  match ← pageLookup pgdir va with
  | none => return
  | some (page, pte) =>
    pageDecref page
    tlbInvalidate c pgdir va
    modify fun s => s.poke pte.1 pte.2 0

/-- `page_insert`. The count goes up before a page already mapped at `va` is removed, so that
    re-inserting the same page does not free it. -/
def pageInsert (c : CpuIdx) (pgdir pp : Nat) (va perm : Word) : K (Except Err Unit) := do
  match ← pgdirWalk pgdir va true with
  | none => return .error .noMem
  | some entry =>
    ppIncref pp
    let s ← get
    if s.entry entry &&& pteP ≠ 0 then
      tlbInvalidate c pgdir va
      pageRemove c pgdir va
    modify fun s => s.poke entry.1 entry.2 (page2pa pp ||| perm ||| pteP)
    return .ok ()

/-- The loop of `user_mem_check` over the pages from `start` up to `last`. `fuel` bounds the number
    of pages; `2 ^ 20` covers the whole address space. -/
def userMemCheckLoop (pgdir : Nat) (va last perm : Word) : Nat → Word → K (Except Err Unit)
  | 0, _ => return .ok ()
  | fuel + 1, start => do
    if start < last then
      let cur ← pgdirWalk pgdir start false
      let s ← get
      let bad := match cur with
        | none => true
        | some pte => decide (ulim ≤ start) || decide (s.entry pte &&& perm ≠ perm)
      if bad then
        set { s with userMemCheckAddr := if start = rounddown va then va else start }
        return .error .fault
      else userMemCheckLoop pgdir va last perm fuel (start + BitVec.ofNat 32 pgsize)
    else return .ok ()

/-- `user_mem_check`. Both ends are rounded in 32-bit arithmetic. A null page directory cannot be
    walked. -/
def userMemCheck (e : EnvIdx) (va len perm : Word) : K (Except Err Unit) := do
  let s ← get
  match (s.envs e).envPgdir with
  | none => panic
  | some pd => userMemCheckLoop pd va (roundup (va + len)) perm (2 ^ 20) (rounddown va)

/-- The loop of `boot_map_region` over `n` pages. Running out of page tables dereferences a null
    pointer. -/
def bootMapLoop (pgdir : Nat) (perm : Word) : Nat → Word → Word → K Unit
  | 0, _, _ => return
  | n + 1, va, pa => do
    match ← pgdirWalk pgdir va true with
    | none => panic
    | some entry =>
      modify fun s => s.poke entry.1 entry.2 (pa ||| perm ||| pteP)
      bootMapLoop pgdir perm n (va + BitVec.ofNat 32 pgsize) (pa + BitVec.ofNat 32 pgsize)

/-- `boot_map_region`: the loop runs once for every started page of `size`. -/
def bootMapRegion (pgdir : Nat) (va size pa perm : Word) : K Unit :=
  bootMapLoop pgdir perm ((size.toNat + (pgsize - 1)) / pgsize) va pa

/-- `mmio_map_region`. -/
def mmioMapRegion (pa size : Word) : K Word := do
  let s ← get
  let pa' := rounddown pa
  let size' := roundup (pa + size) - pa'
  if mmiolim ≤ s.mmioBase + size' then panic
  bootMapRegion s.kernPgdir s.mmioBase size' pa' (ptePcd ||| ptePwt ||| pteW)
  modify fun s => { s with mmioBase := s.mmioBase + size' }
  return s.mmioBase

end Jos
