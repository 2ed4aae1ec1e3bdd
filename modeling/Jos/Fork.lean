import Jos.EnvIds
import Jos.LoadIcode

/-!
  Copy-on-write `fork` (`lib/fork.c`, `lib/pgfault.c`).

  The loop of `fork` looks at every page below `USTACKTOP` and calls `duppage` for those that are
  mapped. Meanwhile the parent goes on storing to its own memory, on the stack above all, and
  takes page faults where pages have become copy-on-write; where it stores is a parameter.
  `pgfault` maps and unmaps `PFTEMP`, which the loop of `fork` passes like any other page.
  `duppage` maps a `PTE_SHARE` page with all of `PTE_SYSCALL`, whatever the parent has, and drops
  the errors of the calls for shared and for read-only pages. -/

namespace Jos

open Lib RefCount

namespace Fork

/-- A page that `duppage` is about to map into the child: the entry that it read, and the state at
    its first system call. -/
structure Dup where
  pn : Nat
  pte : Word
  moment : KState

/-- The machine under user code, with a history that the code does not read: the states in which it
    called `sys_page_map`, and from where; the pages that went through `duppage`; and for each run
    of `pgfault`, the pages that had done so by then. -/
structure User where
  kern : KState
  calls : List (KState × Word)
  dups : List Dup
  faults : List (List Dup)

/-- How user code may fail to go on. -/
inductive Halt where
  | panics
  | kernel (why : Stop)

abbrev U := EStateM Halt User

/-- What the machine does for user code. -/
def machine {α : Type} (m : K α) : U α := fun u =>
  match m u.kern with
  | .ok a s => .ok a { u with kern := s }
  | .error why s => .error (.kernel why) { u with kern := s }

/-- `if ((r = …) < 0) panic(…)`. -/
def need (m : U (Except Err Word)) : U Unit := do
  match ← m with
  | .error _ => throw .panics
  | .ok _ => return

/-- `sys_page_map`, from the environment itself. -/
def pageMap (c : CpuIdx) (srcva dstenvid dstva perm : Word) : U (Except Err Word) := do
  modify fun u => { u with calls := u.calls ++ [(u.kern, srcva)] }
  machine (sysPageMap c 0 srcva dstenvid dstva perm)

section

variable (c : CpuIdx) (cur : EnvIdx)

/-- `uvpt[PGNUM(va)]`, through the directory entry that maps the page tables. -/
def uvpt (va : Word) : U Word := do
  return pteOf (← get).kern cur va

/-- `uvpd[PDX(va)]`. -/
def uvpd (va : Word) : U Word := do
  return pdeAt (← get).kern (some cur) (pdx va)

/-- `memmove(addr, PFTEMP, PGSIZE)`. -/
def copyPage (addr : Word) : U Unit := do
  let s := (← get).kern
  match mappedAt s cur pftemp with
  | none => throw .panics
  | some f => machine (storeBytes c addr ((List.range pgsize).map fun k => (s.mem f).byte k))

/-- `pgfault`. -/
def pgfault (err va : Word) : U Unit := do
  modify fun u => { u with faults := u.faults ++ [u.dups] }
  if err &&& 2 = 0 then throw .panics
  if (← uvpt cur va) &&& pteCow = 0 then throw .panics
  let addr := rounddown va
  need (pageMap c addr 0 pftemp (pteU ||| pteP))
  need (machine (sysPageAlloc c 0 addr (pteW ||| pteU ||| pteP)))
  copyPage c cur addr
  need (machine (sysPageUnmap c 0 pftemp))

/-- User code may store through this entry. -/
def Writable (w : Word) : Prop := w &&& pteP ≠ 0 ∧ w &&& pteU ≠ 0 ∧ w &&& pteW ≠ 0

instance (w : Word) : Decidable (Writable w) := by
  unfold Writable
  infer_instance

/-- A store of the parent. Where it faults, `pgfault` runs and the store is tried again; on a page
    that is not copy-on-write then, `pgfault` would panic. -/
def store (va : Word) (b : Byte) : U Unit := do
  if utop ≤ va then throw .panics
  let w ← uvpt cur va
  if Writable w then machine (storeByte c va b)
  else
    pgfault c cur (if w &&& pteP = 0 then 6 else 7) va
    if Writable (← uvpt cur va) then machine (storeByte c va b) else throw .panics

def stores (l : List (Word × Byte)) : U Unit := l.forM fun x => store c cur x.1 x.2

/-- Points of `fork` at which the parent's stores are accounted for. -/
inductive Point where
  | start
  | scan (pn : Nat)
  | enter (pn : Nat)
  | dup (pn : Nat)
  | own (pn : Nat)
  | finish (k : Nat)

variable (w : Point → List (Word × Byte))

/-- Address of page `pn`. -/
def pageVa (pn : Nat) : Word := BitVec.ofNat 32 (pn * pgsize)

/-- The permissions `PTE_COW|PTE_U|PTE_P`. -/
def cowPerm : Word := pteCow ||| pteU ||| pteP

/-- The stores before the first system call of `duppage`, and a note of it. -/
def aboutToMap (pn : Nat) (pte : Word) : U Unit := do
  stores c cur (w (.dup pn))
  modify fun u => { u with dups := u.dups ++ [⟨pn, pte, u.kern⟩] }

/-- `duppage`. -/
def duppage (envid : Word) (pn : Nat) : U Unit := do
  stores c cur (w (.enter pn))
  let addr := pageVa pn
  let pte ← uvpt cur addr
  aboutToMap c cur w pn pte
  if pte &&& pteShare ≠ 0 then
    let _ ← pageMap c addr envid addr pteSyscall
  else if pte &&& pteW ≠ 0 ∨ pte &&& pteCow ≠ 0 then
    need (pageMap c addr envid addr cowPerm)
    stores c cur (w (.own pn))
    need (pageMap c addr 0 addr cowPerm)
  else
    let _ ← pageMap c addr envid addr (pteU ||| pteP)

/-- The loop of `fork` over the first pages. -/
def scan (envid : Word) : Nat → U Unit
  | 0 => return
  | pn + 1 => do
    scan envid pn
    stores c cur (w (.scan pn))
    let addr := pageVa pn
    if (← uvpd cur addr) &&& pteP ≠ 0 ∧ (← uvpt cur addr) &&& pteP ≠ 0 ∧
        (← uvpt cur addr) &&& pteU ≠ 0 then
      duppage c cur w envid pn

/-- `UXSTACKTOP - PGSIZE`. -/
def uxstackPage : Word := uxstacktop - BitVec.ofNat 32 pgsize

/-- `set_pgfault_handler`; `first` says that there was no handler. -/
def setPgfaultHandler (first : Bool) (upcall : Word) : U Unit := do
  if first then
    need (machine (sysPageAlloc c 0 uxstackPage (pteU ||| pteW ||| pteP)))
    let _ ← machine (sysEnvSetPgfaultUpcall c 0 upcall)

/-- `fork`, as far as the parent runs it. -/
def fork (first : Bool) (upcall : Word) : U Word := do
  setPgfaultHandler c first upcall
  stores c cur (w .start)
  let envid := retCode (← machine (sysExofork c))
  if envid.slt 0 then throw .panics
  if envid = 0 then return 0
  scan c cur w envid (pgnum ustacktop)
  stores c cur (w (.finish 0))
  need (machine (sysPageAlloc c envid uxstackPage (pteP ||| pteW ||| pteU)))
  stores c cur (w (.finish 1))
  need (machine (sysEnvSetPgfaultUpcall c envid upcall))
  stores c cur (w (.finish 2))
  need (machine (sysEnvSetStatus c envid 2))
  stores c cur (w (.finish 3))
  return envid

end

/-! ### The system calls that `fork` makes -/

/-- One entry of `e` was set, as far as page tables are concerned. -/
structure Sets (s t : KState) (e : EnvIdx) (va : Word) : Prop where
  page : ∃ L, PageInv t L ∅
  only : PmOnly s t
  rest : ∀ x i j, ¬ (x = e ∧ At va i j) → pteAt t (some x) i j = pteAt s (some x) i j

section

variable {c : CpuIdx} {cur e src dst : EnvIdx} {s t : KState} {L : List Nat} {d d' : Nat}
  {envid va perm srcenvid srcva dstenvid dstva : Word}

theorem Sets.of_edited {L' : List Nat} (hL : PageInv t L' ∅) (h : Edited (some e) (At va) s t) :
    Sets s t e va :=
  ⟨⟨L', hL⟩, h.only, fun x i j hx => h.pte (some x) i j fun hy =>
    hx ⟨Option.some.inj hy.1, hy.2⟩⟩

/-- `sys_page_map` maps the source frame, or leaves everything as it was. -/
theorem sysPageMap_sets (h : PageInv s L ∅) (hc : s.curenv c = some cur)
    (hl : lookupEnv s cur srcenvid true = some src) (hl' : lookupEnv s cur dstenvid true = some dst)
    (hd : (s.envs src).envPgdir = some d) (hd' : (s.envs dst).envPgdir = some d')
    {r : Except Err Word}
    (hrun : sysPageMap c srcenvid srcva dstenvid dstva perm s = .ok r t) :
    (∃ err, r = .error err ∧ t = s ∧ (MayMap s src srcva dstva perm →
      L = [] ∧ tabFrame s (some dst) (pdx dstva) = none)) ∨
    (∃ f, r = .ok 0 ∧ MayMap s src srcva dstva perm ∧ mappedAt s src srcva = some f ∧
      Shows t dst dstva f perm ∧
      ((s.pages f).ppRef ≠ 65535 ∨ mappedAt s dst dstva = some f → Sets s t dst dstva) ∧
      ¬ (L = [] ∧ tabFrame s (some dst) (pdx dstva) = none)) := by
  by_cases hmay : MayMap s src srcva dstva perm
  swap
  · rw [sysPageMap_inval h hc hl hl' hd hmay] at hrun
    cases hrun
    exact Or.inl ⟨_, rfl, rfl, fun hx => absurd hx hmay⟩
  have hmiss : L.length < tablesMissing s dst dstva ↔
      L = [] ∧ tabFrame s (some dst) (pdx dstva) = none := by
    unfold tablesMissing
    split
    · simp_all
    · simp_all
  rcases sysPageMap_run h hc hl hl' hd hd' hmay with ⟨hlt, hr⟩ | ⟨hge, f, u, hr, hf, hmap⟩
  · rw [hr] at hrun
    cases hrun
    exact Or.inl ⟨_, rfl, rfl, fun _ => hmiss.mp hlt⟩
  · rw [hr] at hrun
    cases hrun
    have hshow := hmap.shows (h.lt_window (h.counted.target _ f hf)).2 hmay.bits
    refine Or.inr ⟨f, rfl, hmay, hf, hshow, fun hfit => ?_, fun hx => hge (hmiss.mpr hx)⟩
    obtain ⟨L', hL', -⟩ := hmap.inv (by rw [← hmap.entry]; exact hshow.frame) hfit
    exact .of_edited (by simpa using hL') hmap.edit

theorem Sets.other (h : Sets s t e va) {x : EnvIdx} (hx : x ≠ e) (i j : Idx) :
    pteAt t (some x) i j = pteAt s (some x) i j :=
  h.rest x i j fun hy => hx hy.1

theorem Sets.away (h : Sets s t e va) {a : Word} (ha : pgnum a ≠ pgnum va) :
    pteOf t e a = pteOf s e a :=
  h.rest e _ _ fun hy => ha (at_iff.mp hy.2)

/-- The only slot with a page that nothing referred to before is the one where it was mapped. -/
theorem sole_of_mapped {m : KState} {f : Nat} {w : Word} {H : Finset Nat}
    (hmap : Mapped m t e va f w H) (hfresh : ∀ r, target m r ≠ some f) (hL : PageInv t L ∅)
    (hf : mappedAt t e va = some f) : ∀ r, target t r = some f → r = .pte e (pdx va) (ptx va) := by
  intro r hr
  have hnt := hL.notTable_of_pte hf
  cases r with
  | dir x => exact absurd hr (hnt.2 _ trivial)
  | tab o a => exact absurd hr (hnt.2 _ trivial)
  | pte x a b =>
    by_cases hx : some x = some e ∧ At va a b
    · obtain ⟨hxe, rfl, rfl⟩ := hx
      rw [Option.some.inj hxe]
    · simp only [target, hmap.edit.pte (some x) a b hx] at hr
      exact absurd hr (hfresh (.pte x a b))

/-- `sys_page_alloc`, when it succeeds. -/
theorem sysPageAlloc_sets (h : PageInv s L ∅) (hc : s.curenv c = some cur)
    (hl : lookupEnv s cur envid true = some e) (hd : (s.envs e).envPgdir = some d) {x : Word}
    (hrun : sysPageAlloc c envid va perm s = .ok (.ok x) t) :
    ∃ f, Shows t e va f perm ∧ Sets s t e va ∧ (t.pages f).ppRef = 1 ∧
      ∀ r, target t r = some f → r = .pte e (pdx va) (ptx va) := by
  by_cases hva : vaOk va = true
  swap
  · simp [sysPageAlloc, run_bind, envid2env_run hc, hl, hva, run_pure] at hrun
  by_cases hperm : permOk perm = true
  swap
  · simp [sysPageAlloc, run_bind, envid2env_run hc, hl, hva, hperm, run_pure] at hrun
  rcases sysPageAlloc_run h hc hl hd hva hperm with ⟨-, hr⟩ | ⟨u, -, -, hr⟩ |
    ⟨f, m, u, L', -, hr, rfl, hm, hmap⟩
  · rw [hr] at hrun
    cases hrun
  · rw [hr] at hrun
    cases hrun
  rw [hr] at hrun
  cases hrun
  obtain ⟨hshow, -, L'', ht⟩ := hm.mapped hmap hperm
  have hfresh := (hm.inv.counted.inHand f (Finset.mem_singleton_self f)).2
  have hslot : target t (.pte e (pdx va) (ptx va)) = some f := hshow.frame
  have hother := Sets.of_edited ht hmap.edit
  have hsole := sole_of_mapped hmap hfresh ht hshow.frame
  refine ⟨f, hshow, ⟨⟨L'', ht⟩, hm.only.trans hother.only, fun y i j hy => ?_⟩,
    BitVec.eq_of_toNat_eq ?_, hsole⟩
  · rw [hother.rest y i j hy, hm.tables.2]
  · rw [ht.counted.exact f (ht.counted.target _ f hslot), refs_eq_one hslot hsole]
    rfl

/-- `sys_page_unmap`, when it succeeds. -/
theorem sysPageUnmap_sets (h : PageInv s L ∅) (hc : s.curenv c = some cur)
    (hl : lookupEnv s cur envid true = some e) (hd : (s.envs e).envPgdir = some d) {x : Word}
    (hrun : sysPageUnmap c envid va s = .ok (.ok x) t) :
    Sets s t e va ∧ mappedAt t e va = none := by
  by_cases hva : vaOk va = true
  swap
  · simp [sysPageUnmap, run_bind, envid2env_run hc, hl, hva, run_pure] at hrun
  have hva' : ¬ vaOk va = false := by simp [hva]
  have hpg : getPgdir e s = .ok d s := getPgdir_run hd
  rcases pageRemove_spec c h hd (pdx_of_vaOk hva) with ⟨hn, hr⟩ | ⟨f, u, -, hr, hun⟩
  · simp only [sysPageUnmap, run_bind, envid2env_run hc, hl, if_neg hva', hpg, hr, run_pure] at hrun
    cases hrun
    exact ⟨⟨⟨L, h⟩, .refl s, fun _ _ _ _ => rfl⟩, hn⟩
  · simp only [sysPageUnmap, run_bind, envid2env_run hc, hl, if_neg hva', hpg, hr, run_pure] at hrun
    cases hrun
    refine ⟨.of_edited hun.inv hun.edit, ?_⟩
    rw [mappedAt, hun.target, Function.update_self]

/-! ### Stores of the parent -/

/-- What the kernel has to say about the environment that forks. -/
structure Parent (c : CpuIdx) (cur : EnvIdx) (d : Nat) (s : KState) : Prop where
  page : ∃ L, PageInv s L ∅
  running : s.curenv c = some cur
  dir : (s.envs cur).envPgdir = some d ∧ s.cr3 c = d

theorem Parent.of_only (h : Parent c cur d s) (hp : ∃ L, PageInv t L ∅) (ho : PmOnly s t) :
    Parent c cur d t :=
  ⟨hp, by rw [ho.curenv]; exact h.running, by rw [ho.envs, ho.cr3]; exact h.dir⟩

theorem Parent.sets (h : Parent c cur d s) (hs : Sets s t e va) : Parent c cur d t :=
  h.of_only hs.page hs.only

/-- A store that does not go through a page table. -/
theorem storeByte_quiet {b : Byte} (h : PageInv s L ∅) (hd : (s.envs cur).envPgdir = some (s.cr3 c))
    (hva : va < utop) (hrun : storeByte c va b s = .ok () t) :
    PageInv t L ∅ ∧ PmOnly s t ∧ pteAt t = pteAt s := by
  cases hw : walk s.mem (s.cr3 c) (pgnum va) with
  | none =>
    simp only [storeByte, run_bind, run_get, hw] at hrun
    cases hrun
  | some f =>
    simp only [storeByte, run_bind, run_get, hw, run_set] at hrun
    cases hrun
    have hnt : NotTable s f := h.notTable_of_pte (walk_user hd hva ▸ hw)
    exact ⟨h.setFrame hnt _, .setFrame s f _, hnt.pteAt_setFrame _⟩

theorem storeBytes_quiet : ∀ {bs : List Byte} {va : Word} {s : KState}, PageInv s L ∅ →
    (s.envs cur).envPgdir = some (s.cr3 c) → va.toNat + bs.length ≤ utop.toNat →
    storeBytes c va bs s = .ok () t → PageInv t L ∅ ∧ PmOnly s t ∧ pteAt t = pteAt s
  | [], _, s, h, _, _, hrun => by
    cases hrun
    exact ⟨h, .refl _, rfl⟩
  | b :: bs, va, s, h, hd, hle, hrun => by
    obtain ⟨_, m, hb, hrest⟩ := bind_eq_ok hrun
    have hutop := utop.isLt
    rw [List.length_cons] at hle
    have hva : va < utop := by
      rw [BitVec.lt_def]
      omega
    have hva1 : (va + 1).toNat = va.toNat + 1 := toNat_add_ofNat (k := 1) (by omega)
    obtain ⟨hm, hmo, hmp⟩ := storeByte_quiet h hd hva hb
    obtain ⟨ht, hto, htp⟩ := storeBytes_quiet hm (by rw [hmo.envs, hmo.cr3]; exact hd) (by omega)
      hrest
    exact ⟨ht, hmo.trans hto, htp.trans hmp⟩

end

section

variable {c : CpuIdx} {cur : EnvIdx} {d : Nat} {u v x : User} {s t : KState} {va : Word}

/-- The history grows, and no page goes through `duppage`. -/
structure Goes (u v : User) : Prop where
  calls : u.calls ⊆ v.calls
  dups : v.dups = u.dups
  older : u.faults ⊆ v.faults
  newer : ∀ done ∈ v.faults, done ∈ u.faults ∨ done = u.dups

theorem Goes.refl (u : User) : Goes u u :=
  ⟨List.Subset.refl _, rfl, List.Subset.refl _, fun _ hd => Or.inl hd⟩

theorem Goes.trans (h : Goes u v) (h' : Goes v x) : Goes u x := by
  refine ⟨List.Subset.trans h.calls h'.calls, h'.dups.trans h.dups,
    List.Subset.trans h.older h'.older, fun done hd => ?_⟩
  rcases h'.newer done hd with hd | hd
  · exact h.newer done hd
  · exact Or.inr (hd.trans h.dups)

theorem Goes.quiet (h : Goes u v) (hv : v.faults = []) : u.faults = [] :=
  List.eq_nil_of_subset_nil (hv ▸ h.older)

theorem machine_ok {α : Type} {m : K α} {a : α} (h : machine m u = .ok a v) :
    m u.kern = .ok a v.kern ∧ Goes u v := by
  unfold machine at h
  cases hm : m u.kern with
  | ok b s =>
    rw [hm] at h
    cases h
    exact ⟨rfl, List.Subset.refl _, rfl, List.Subset.refl _, fun _ hd => Or.inl hd⟩
  | error why s =>
    rw [hm] at h
    cases h

/-- The kernel does not run `pgfault`. -/
theorem machine_faults {α : Type} {m : K α} {a : α} (h : machine m u = .ok a v) :
    v.faults = u.faults := by
  unfold machine at h
  split at h
  · cases h
    rfl
  · cases h

theorem need_ok {m : U (Except Err Word)} (h : need m u = .ok () v) : ∃ a, m u = .ok (.ok a) v := by
  obtain ⟨r, w, hw, hm⟩ := bind_eq_ok h
  cases r with
  | error err => cases hm
  | ok a =>
    cases hm
    exact ⟨a, hw⟩

theorem needMachine_ok {m : K (Except Err Word)} (h : need (machine m) u = .ok () v) :
    ∃ a, m u.kern = .ok (.ok a) v.kern ∧ Goes u v := by
  obtain ⟨a, ha⟩ := need_ok h
  exact ⟨a, machine_ok ha⟩

theorem needMachine_faults {m : K (Except Err Word)} (h : need (machine m) u = .ok () v) :
    v.faults = u.faults := by
  obtain ⟨_, ha⟩ := need_ok h
  exact machine_faults ha

theorem pageMap_ok {srcva dstenvid dstva perm : Word} {r : Except Err Word}
    (h : pageMap c srcva dstenvid dstva perm u = .ok r v) :
    sysPageMap c 0 srcva dstenvid dstva perm u.kern = .ok r v.kern ∧ Goes u v ∧
      (u.kern, srcva) ∈ v.calls := by
  obtain ⟨_, w, hw, hm⟩ := bind_eq_ok h
  rw [run_modify] at hw
  cases hw
  obtain ⟨hrun, hgo⟩ := machine_ok hm
  exact ⟨hrun, ⟨fun y hy => hgo.calls (List.mem_append_left _ hy), hgo.dups, hgo.older, hgo.newer⟩,
    hgo.calls (List.mem_append_right _ (List.mem_singleton_self _))⟩

theorem pageMap_faults {srcva dstenvid dstva perm : Word} {r : Except Err Word}
    (h : pageMap c srcva dstenvid dstva perm u = .ok r v) : v.faults = u.faults := by
  obtain ⟨_, w, hw, hm⟩ := bind_eq_ok h
  rw [run_modify] at hw
  cases hw
  have := machine_faults hm
  exact this

/-- The counter of the page that the parent maps with `sys_page_map` does not wrap. -/
def Fits (cur : EnvIdx) (calls : List (KState × Word)) : Prop :=
  ∀ m ∈ calls, ∀ f, mappedAt m.1 cur m.2 = some f → (m.1.pages f).ppRef ≠ 65535

theorem Fits.of_goes (h : Fits cur v.calls) (hg : Goes u v) : Fits cur u.calls :=
  fun m hm => h m (hg.calls hm)

/-- Permissions of a private copy. -/
def ownPerm : Word := pteW ||| pteU ||| pteP

/-- A private copy: `e` may write to it at `a`, and it is mapped nowhere else. -/
structure Own (s : KState) (e : EnvIdx) (a : Word) (f : Nat) : Prop where
  shows : Shows s e a f ownPerm
  sole : ∀ x b, mappedAt s x b = some f → x = e ∧ pgnum b = pgnum a

/-- The parent's entries after some stores: copy-on-write pages may have been replaced by private
    copies, and `PFTEMP` may have been used. -/
structure Aged (s t : KState) (cur : EnvIdx) : Prop where
  only : PmOnly s t
  other : ∀ x, x ≠ cur → ∀ i j, pteAt t (some x) i j = pteAt s (some x) i j
  mine : ∀ a, a < utop → pgnum a ≠ pgnum pftemp → pteOf t cur a = pteOf s cur a ∨
    (pteOf s cur a &&& pteCow ≠ 0 ∧ ∃ f, Own t cur a f)
  temp : ∀ a, pgnum a = pgnum pftemp → pteOf t cur a = pteOf s cur a ∨ mappedAt t cur a = none

theorem mappedAt_of_pteOf {e : EnvIdx} {a : Word} (h : pteOf t e a = pteOf s e a) :
    mappedAt t e a = mappedAt s e a := congrArg entryFrame h

theorem shows_of_pteOf {e : EnvIdx} {a perm : Word} {f : Nat} (hp : pteOf t e a = pteOf s e a)
    (h : Shows s e a f perm) : Shows t e a f perm :=
  ⟨hp.trans h.entry, (mappedAt_of_pteOf hp).trans h.frame⟩

theorem mappedAt_lt {x : EnvIdx} {b : Word} {f : Nat} (h : mappedAt s x b = some f) : b < utop := by
  by_contra hb
  have hown : ¬ Owns (some x) (pdx b) := fun hx => hb (pdx_lt_utopPdx.mp hx)
  have htab : tabFrame s (some x) (pdx b) = none := if_neg hown
  simp only [mappedAt, target, pteAt_of_no_tab htab, entryFrame_zero] at h
  cases h

/-- A private copy stays one while its entry stays and no other entry gets its page. -/
theorem Own.keep {e : EnvIdx} {a : Word} {f : Nat} (h : Own s e a f)
    (hp : pteOf t e a = pteOf s e a)
    (hs : ∀ x b, mappedAt t x b = some f → mappedAt s x b = some f ∨ x = e ∧ pgnum b = pgnum a) :
    Own t e a f := by
  refine ⟨shows_of_pteOf hp h.shows, fun x b hb => ?_⟩
  rcases hs x b hb with h1 | h1
  · exact h.sole x b h1
  · exact h1

theorem Own.page {e : EnvIdx} {a b : Word} {f : Nat} (h : Own s e a f) (hb : pgnum b = pgnum a) :
    Own s e b f :=
  ⟨⟨(pteOf_page hb).trans h.shows.entry, (mappedAt_page hb).trans h.shows.frame⟩,
    fun x y hy => by rw [hb]; exact h.sole x y hy⟩

/-- Setting an entry elsewhere, to another page or to none. -/
theorem Own.sets {e x : EnvIdx} {a b : Word} {f : Nat} (h : Own s e a f) (hs : Sets s t x b)
    (hne : ¬ (x = e ∧ pgnum b = pgnum a)) (hb : mappedAt t x b ≠ some f) : Own t e a f := by
  refine h.keep ?_ fun y z hz => Or.inl ?_
  · exact hs.rest e _ _ fun hy => hne ⟨hy.1.symm, (at_iff.mp hy.2).symm⟩
  · by_cases hy : y = x ∧ At b (pdx z) (ptx z)
    · obtain ⟨rfl, hat⟩ := hy
      rw [mappedAt_page (at_iff.mp hat)] at hz
      exact absurd hz hb
    · rw [← hz]
      exact congrArg entryFrame (hs.rest y _ _ hy).symm

theorem Aged.of_pteAt (ho : PmOnly s t) (h : pteAt t = pteAt s) : Aged s t cur :=
  ⟨ho, fun _ _ _ _ => by rw [h], fun _ _ _ => Or.inl (by rw [pteOf, h, pteOf]),
    fun _ _ => Or.inl (by rw [pteOf, h, pteOf])⟩

theorem Aged.refl (s : KState) (cur : EnvIdx) : Aged s s cur := .of_pteAt (.refl s) rfl

/-- Stores keep private copies. -/
theorem Own.aged {e : EnvIdx} {a : Word} {f : Nat} (h : Own s e a f) (hst : Aged s t cur)
    (hp : pteOf t e a = pteOf s e a) : Own t e a f := by
  refine h.keep hp fun x b hb => ?_
  have hlt := mappedAt_lt hb
  by_cases hx : x = cur
  swap
  · exact Or.inl (hb ▸ congrArg entryFrame (hst.other x hx _ _).symm)
  subst hx
  by_cases htemp : pgnum b = pgnum pftemp
  · rcases hst.temp b htemp with h1 | h1
    · exact Or.inl ((mappedAt_of_pteOf h1).symm.trans hb)
    · rw [h1] at hb
      cases hb
  · rcases hst.mine b hlt htemp with h1 | ⟨-, g, hg⟩
    · exact Or.inl ((mappedAt_of_pteOf h1).symm.trans hb)
    · -- the private copy at `b` is mapped at `a` too, so the two are one page
      obtain rfl := Option.some.inj (hg.shows.frame.symm.trans hb)
      have ha := (mappedAt_of_pteOf hp).trans h.shows.frame
      exact Or.inr ⟨(hg.sole e a ha).1.symm, (hg.sole e a ha).2.symm⟩

theorem Aged.trans {r : KState} (h : Aged s t cur) (h' : Aged t r cur) : Aged s r cur := by
  refine ⟨h.only.trans h'.only, fun y hy i j => (h'.other y hy i j).trans (h.other y hy i j),
    fun a ha hne => ?_, fun a ha => ?_⟩
  · rcases h.mine a ha hne with h1 | ⟨hcow, f, hf⟩
    · rw [← h1]
      exact h'.mine a ha hne
    · rcases h'.mine a ha hne with h2 | ⟨-, g, hg⟩
      · exact Or.inr ⟨hcow, f, hf.aged h' h2⟩
      · exact Or.inr ⟨hcow, g, hg⟩
  · rcases h'.temp a ha with h2 | h2
    · rcases h.temp a ha with h1 | h1
      · exact Or.inl (h2.trans h1)
      · exact Or.inr ((mappedAt_of_pteOf h2).trans h1)
    · exact Or.inr h2

theorem pgnum_rounddown (a : Word) : pgnum (rounddown a) = pgnum a := by
  have := rounddown_toNat a
  unfold pgnum
  omega

/-- Once `pgfault` has run, nothing is mapped at `PFTEMP`. -/
def Gone (cur : EnvIdx) (u : User) : Prop := u.faults ≠ [] → mappedAt u.kern cur pftemp = none

/-- The entry for `PFTEMP` from one state to a later one. -/
structure TempAged (cur : EnvIdx) (u v : User) : Prop where
  quiet : v.faults = [] → pteOf v.kern cur pftemp = pteOf u.kern cur pftemp
  gone : Gone cur u → Gone cur v

theorem TempAged.of_pteOf (h : v.faults = u.faults)
    (hp : pteOf v.kern cur pftemp = pteOf u.kern cur pftemp) : TempAged cur u v :=
  ⟨fun _ => hp, fun hu hv => (mappedAt_of_pteOf hp).trans (hu (h ▸ hv))⟩

theorem TempAged.refl (cur : EnvIdx) (u : User) : TempAged cur u u := .of_pteOf rfl rfl

theorem TempAged.trans (h : TempAged cur u v) (hgo : Goes v x) (h' : TempAged cur v x) :
    TempAged cur u x :=
  ⟨fun hx => (h'.quiet hx).trans (h.quiet (hgo.quiet hx)), fun hu => h'.gone (h.gone hu)⟩

/-- `pgfault`, when it returns. -/
structure Copied (s t : KState) (cur : EnvIdx) (va : Word) : Prop where
  only : PmOnly s t
  other : ∀ x, x ≠ cur → ∀ i j, pteAt t (some x) i j = pteAt s (some x) i j
  cow : pteOf s cur va &&& pteCow ≠ 0
  rest : ∀ a, pgnum a ≠ pgnum pftemp → pgnum a ≠ pgnum va → pteOf t cur a = pteOf s cur a
  temp : mappedAt t cur pftemp = none
  own : pgnum va ≠ pgnum pftemp → ∃ f, Own t cur va f

theorem lookupEnv_self (s : KState) (cur : EnvIdx) : lookupEnv s cur 0 true = some cur := rfl

theorem copyPage_ok {addr : Word} (h : copyPage c cur addr u = .ok () v) :
    Goes u v ∧
      ∃ bs : List Byte, bs.length = 4096 ∧ storeBytes c addr bs u.kern = .ok () v.kern := by
  obtain ⟨_, _, h0, h⟩ := bind_eq_ok h
  cases h0
  cases hm : mappedAt u.kern cur pftemp with
  | none =>
    simp only [hm] at h
    cases h
  | some f =>
    simp only [hm] at h
    obtain ⟨hrun, hgo⟩ := machine_ok h
    exact ⟨hgo, _, by rw [List.length_map, List.length_range]; rfl, hrun⟩

theorem pgfault_ok {err : Word} (h : pgfault c cur err va u = .ok () v) (hva : va < utop) :
    Goes u v ∧ v.faults ≠ [] ∧ (Fits cur v.calls → Parent c cur d u.kern →
      Parent c cur d v.kern ∧ Copied u.kern v.kern cur va) := by
  unfold pgfault at h
  obtain ⟨_, _, h0, h⟩ := bind_eq_ok h
  rw [run_modify] at h0
  cases h0
  have go0 : Goes u { u with faults := u.faults ++ [u.dups] } :=
    ⟨List.Subset.refl _, rfl, List.subset_append_left .., fun done hd => by
    rcases List.mem_append.mp hd with hd | hd
    · exact Or.inl hd
    · exact Or.inr (List.mem_singleton.mp hd)⟩
  by_cases herr : err &&& 2 = 0
  · rw [if_pos herr] at h
    cases h
  rw [if_neg herr] at h
  obtain ⟨_, _, h0, h⟩ := bind_eq_ok h
  cases h0
  by_cases hcow : pteOf u.kern cur va &&& pteCow = 0
  · simp only [if_pos hcow] at h
    cases h
  simp only [if_neg hcow] at h
  obtain ⟨_, u1, hmap, h⟩ := bind_eq_ok h
  obtain ⟨_, u2, halloc, h⟩ := bind_eq_ok h
  obtain ⟨_, u3, hcopy, hunmap⟩ := bind_eq_ok h
  obtain ⟨_, hmap⟩ := need_ok hmap
  obtain ⟨hmap, go1, at1⟩ := pageMap_ok hmap
  obtain ⟨_, halloc, go2⟩ := needMachine_ok halloc
  obtain ⟨_, hunmap, go4⟩ := needMachine_ok hunmap
  have hpage := pgnum_rounddown va
  have hval := rounddown_toNat va
  have hutop : utop.toNat = 0xEEC00000 := by decide
  rw [BitVec.lt_def] at hva
  have hru : rounddown va < utop := by
    rw [BitVec.lt_def]
    omega
  obtain ⟨go3, bs, hbs, hcopy⟩ := copyPage_ok hcopy
  have go := ((go1.trans go2).trans go3).trans go4
  have hran : u.dups ∈ v.faults := go.older (by simp)
  refine ⟨go0.trans go, List.ne_nil_of_mem hran, fun hfit hp => ?_⟩
  have hin : (u.kern, rounddown va) ∈ v.calls := (go2.trans (go3.trans go4)).calls at1
  -- the three system calls and the copy, one after the other
  obtain ⟨L0, hL0⟩ := hp.page
  rcases sysPageMap_sets hL0 hp.running (lookupEnv_self ..) (lookupEnv_self ..) hp.dir.1 hp.dir.1
    hmap with ⟨_, hno, -⟩ | ⟨f, -, -, hf, -, hset, -⟩
  · cases hno
  have hs1 := hset (Or.inl (hfit _ hin f hf))
  have hp1 := hp.sets hs1
  obtain ⟨L1, hL1⟩ := hp1.page
  obtain ⟨g, hg, hs2, -, hsole⟩ := sysPageAlloc_sets hL1 hp1.running (lookupEnv_self ..) hp1.dir.1
    halloc
  have hp2 := hp1.sets hs2
  obtain ⟨L2, hL2⟩ := hp2.page
  obtain ⟨hL3, ho3, hpte3⟩ := storeBytes_quiet hL2 (by rw [hp2.dir.2]; exact hp2.dir.1) (by omega)
    hcopy
  have hp3 := hp2.of_only ⟨L2, hL3⟩ ho3
  obtain ⟨hs4, hnone⟩ := sysPageUnmap_sets hL3 hp3.running (lookupEnv_self ..) hp3.dir.1 hunmap
  have hquiet : ∀ a, pteOf u3.kern cur a = pteOf u2.kern cur a := fun a => by
    rw [pteOf, hpte3, pteOf]
  refine ⟨hp3.sets hs4, ((hs1.only.trans hs2.only).trans ho3).trans hs4.only,
    fun y hy i j => ?_, hcow, fun a ht hne => ?_, hnone, fun ht => ⟨g, ?_⟩⟩
  · rw [hs4.other hy, hpte3, hs2.other hy, hs1.other hy]
  · rw [hs4.away ht, hquiet, hs2.away (by rw [hpage]; exact hne), hs1.away ht]
  · have hown2 : Own u2.kern cur (rounddown va) g := by
      refine ⟨hg, fun x b hb => ?_⟩
      have hslot := hsole (.pte x (pdx b) (ptx b)) hb
      injection hslot with h1 h2 h3
      exact ⟨h1, at_iff.mp ⟨h2, h3⟩⟩
    have hown3 : Own u3.kern cur (rounddown va) g :=
      hown2.keep (hquiet _) fun x b hb => Or.inl (by
        rw [← hb]
        simp only [mappedAt, target, hpte3])
    exact (hown3.sets hs4 (fun hx => ht (by rw [← hpage]; exact hx.2.symm))
      (by rw [hnone]; simp)).page hpage.symm

theorem store_ok {b : Byte} (h : store c cur va b u = .ok () v) :
    Goes u v ∧ (Fits cur v.calls → Parent c cur d u.kern →
      Parent c cur d v.kern ∧ Aged u.kern v.kern cur ∧ TempAged cur u v) := by
  unfold store at h
  by_cases hva : utop ≤ va
  · simp only [if_pos hva] at h
    cases h
  simp only [if_neg hva] at h
  have hva' : va < utop := by
    rw [BitVec.lt_def]
    rw [BitVec.le_def] at hva
    omega
  obtain ⟨_, _, h0, h⟩ := bind_eq_ok h
  cases h0
  have hmachine : ∀ {x : User}, machine (storeByte c va b) x = .ok () v → Goes x v ∧
      (Parent c cur d x.kern →
        Parent c cur d v.kern ∧ Aged x.kern v.kern cur ∧ TempAged cur x v) := by
    intro x hrun
    have hsame := machine_faults hrun
    obtain ⟨hrun, hgo⟩ := machine_ok hrun
    refine ⟨hgo, fun hx => ?_⟩
    obtain ⟨L, hL⟩ := hx.page
    obtain ⟨ht, ho, hpte⟩ := storeByte_quiet hL (by rw [hx.dir.2]; exact hx.dir.1) hva' hrun
    exact ⟨hx.of_only ⟨L, ht⟩ ho, .of_pteAt ho hpte, .of_pteOf hsame (by rw [pteOf, hpte, pteOf])⟩
  by_cases hw : Writable (pteOf u.kern cur va)
  · simp only [if_pos hw] at h
    obtain ⟨hgo, hlast⟩ := hmachine h
    exact ⟨hgo, fun _ => hlast⟩
  simp only [if_neg hw] at h
  obtain ⟨_, x, hfault, h⟩ := bind_eq_ok h
  obtain ⟨_, _, h0, h⟩ := bind_eq_ok h
  cases h0
  by_cases hw' : Writable (pteOf x.kern cur va)
  swap
  · simp only [if_neg hw'] at h
    cases h
  simp only [if_pos hw'] at h
  obtain ⟨hgo', hlast⟩ := hmachine h
  obtain ⟨hgo, hran, hcopy⟩ := pgfault_ok (d := d) hfault hva'
  refine ⟨hgo.trans hgo', fun hfit hp => ?_⟩
  obtain ⟨hx, hcopied⟩ := hcopy (hfit.of_goes hgo') hp
  obtain ⟨hv, haged, htemp⟩ := hlast hx
  have hused : TempAged cur u x := ⟨fun hq => absurd hq hran, fun _ _ => hcopied.temp⟩
  refine ⟨hv, Aged.trans ⟨hcopied.only, hcopied.other, fun a _ ha => ?_,
    fun a ha => Or.inr ((mappedAt_page ha).trans hcopied.temp)⟩ haged, hused.trans hgo' htemp⟩
  by_cases hpage : pgnum a = pgnum va
  · obtain ⟨f, hf⟩ := hcopied.own (by rw [← hpage]; exact ha)
    exact Or.inr ⟨by rw [pteOf_page hpage]; exact hcopied.cow, f, hf.page hpage⟩
  · exact Or.inl (hcopied.rest a ha hpage)

theorem stores_ok : ∀ {l : List (Word × Byte)} {u : User}, stores c cur l u = .ok () v →
    Goes u v ∧ (Fits cur v.calls → Parent c cur d u.kern →
      Parent c cur d v.kern ∧ Aged u.kern v.kern cur ∧ TempAged cur u v)
  | [], u, h => by
    cases h
    exact ⟨.refl v, fun _ hp => ⟨hp, .refl _ _, .refl _ _⟩⟩
  | (a, b) :: l, u, h => by
    obtain ⟨_, x, h1, h2⟩ := bind_eq_ok h
    obtain ⟨hgo, hstore⟩ := store_ok (d := d) h1
    obtain ⟨hgo', hrest⟩ := stores_ok (l := l) h2
    refine ⟨hgo.trans hgo', fun hfit hp => ?_⟩
    obtain ⟨hx, hux, hux'⟩ := hstore (hfit.of_goes hgo') hp
    obtain ⟨hv, hxv, hxv'⟩ := hrest hfit hx
    exact ⟨hv, hux.trans hxv, hux'.trans hgo' hxv'⟩

end

end Fork

end Jos
