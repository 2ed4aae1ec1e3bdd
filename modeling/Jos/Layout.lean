import Jos.Insert

/-!
  The layout of the kernel's address space that `mem_init` is meant to build.

  `page2pa(pages)` is the physical address of page 0, not that of the array, so the region at
  `UPAGES` shows the start of physical memory instead of `pages`. -/

namespace Jos

open Lib RefCount

/-- The physical address that directory `d` gives for `va`. -/
def translate (s : KState) (d : Nat) (va : Word) : Option Word :=
  (entryFrame (entryOf s d (pdx va) (ptx va))).map fun f => page2pa f + BitVec.ofNat 32 (pgoff va)

/-- The permissions that directory `d` gives for `va`: those of both levels. -/
def rights (s : KState) (d : Nat) (va : Word) : Word :=
  s.mem d (pdx va) &&& entryOf s d (pdx va) (ptx va)

/-- In the kernel's directory `va` leads to `pa`, with the rights `need` and none of `deny`. -/
structure Leads (s : KState) (va pa need deny : Word) : Prop where
  leads : translate s s.kernPgdir va = some pa
  need : rights s s.kernPgdir va &&& need = need
  deny : rights s s.kernPgdir va &&& deny = 0

/-- The layout described in `memlayout.h` and `mem_init`, in the state `t` that `mem_init` leaves;
    `s` is the state in which it starts to map regions. -/
structure KernLayout (p : BootParams) (s t : KState) : Prop where
  pages : ∀ i, i < t.npages * sizeofPageInfo →
    Leads t (upages + BitVec.ofNat 32 i) (t.pagesAt - kernbase + BitVec.ofNat 32 i) pteU pteW
  envs : ∀ i, i < nenv * sizeofEnv →
    Leads t (uenvs + BitVec.ofNat 32 i) (t.envsAt - kernbase + BitVec.ofNat 32 i) pteU pteW
  kstacks : ∀ (k : CpuIdx) (i : Nat), i < kstksize →
    Leads t (kstacktop - BitVec.ofNat 32 ((kstksize + kstkgap) * k.val + kstksize) +
      BitVec.ofNat 32 i) (p.percpuKstacks k - kernbase + BitVec.ofNat 32 i) pteW pteU
  gaps : ∀ (k : CpuIdx) (i : Nat), i < kstkgap →
    translate t t.kernPgdir (kstacktop - BitVec.ofNat 32 ((kstksize + kstkgap) * (k.val + 1)) +
      BitVec.ofNat 32 i) = none
  phys : ∀ i, i < 2 ^ 32 - kernbase.toNat →
    Leads t (kernbase + BitVec.ofNat 32 i) (BitVec.ofNat 32 i) pteW pteU
  refs : ∀ f, (∀ i, tabFrame t none i ≠ some f) → (t.pages f).ppRef = (s.pages f).ppRef

variable {p : BootParams} {s t : KState}

/-- The entry behind an address that the kernel's page tables map. -/
theorem entryOf_kern {i j : Idx} (hi : i ≠ uvptPdx) :
    entryOf s s.kernPgdir i j = pteAt s none i j := by
  have hT := tabFrame_of_dir (s := s) (o := none) rfl hi
  cases he : entryFrame (s.mem s.kernPgdir i) with
  | none => simp [entryOf, pteAt, hT, he]
  | some T => simp [entryOf, pteAt, hT, he]

/-- `UPAGES` itself leads to physical address 0. -/
theorem PagesMap.start (h : PagesMap s) : translate s s.kernPgdir upages = some 0 := by
  have hne : pdx upages ≠ uvptPdx := by decide
  have h0 : entryFrame (page2pa 0 ||| pteU ||| pteP) = some 0 :=
    entryFrame_mk_of_lt (by decide) (by decide)
  have hj : (ptx upages).val = 0 := by decide
  have hoff : pgoff upages = 0 := by decide
  rw [translate, entryOf_kern hne, h.pte, hj, h0, hoff]
  rfl

/-- The array is elsewhere. -/
theorem PagesMap.pages_ne_zero (h : PagesMap s) : s.pagesAt - kernbase ≠ 0 := by
  intro h0
  have := h.above.1
  rw [paddrFrame, h0] at this
  exact absurd this (by decide)

/-- `mem_init` completes only on machines that the kernel's window covers, and then maps the start
    of physical memory at `UPAGES`. -/
theorem memInit_ok (h : memInit p (startState p) = .ok () t) : MemReady False 3 t := by
  by_cases hw : detectMemory p ≤ 65536
  · exact (memInit_wp (C := False) hw (fun hc => hc.elim) (by omega) (le_refl 3)).ok h
  · exact ((memInit_high (by omega)).ok h).elim

/-- Some memory exists, since there are page tables. -/
theorem MemReady.npages_pos {C : Prop} {k : ℕ} (h : MemReady C k t) : 0 < t.npages := by
  obtain ⟨L, hL, -⟩ := h.boot.page
  have hpte := h.pages.pte 0
  cases hT : tabFrame t none (pdx upages) with
  | none =>
    rw [pteAt_of_no_tab hT] at hpte
    exact absurd hpte (by decide)
  | some T =>
    have := hL.tab_lt hT
    omega

/-- The layout fails at the first byte of `UPAGES`. -/
theorem MemReady.upages_wrong {C : Prop} {k : ℕ} (h : MemReady C k t) :
    translate t t.kernPgdir upages ≠ some (t.pagesAt - kernbase) := by
  rw [h.pages.start]
  exact fun hx => h.pages.pages_ne_zero (Option.some.inj hx).symm

/-- Whenever `mem_init` completes, the address space is not laid out as described. -/
theorem mem_init_layout_fails (p : BootParams) (s t : KState)
    (h : memInit p (startState p) = .ok () t) : ¬ KernLayout p s t := by
  intro hl
  have hr := memInit_ok h
  have hpos := hr.npages_pos
  have hsize : sizeofPageInfo = 8 := rfl
  have h0 := (hl.pages 0 (by rw [hsize]; omega)).leads
  rw [BitVec.add_zero, BitVec.add_zero] at h0
  exact hr.upages_wrong h0

/-- `mem_init` completes on the demonstration machine. -/
theorem memInit_demo : ∃ t, memInit demo (startState demo) = .ok () t := by
  have hw : detectMemory demo = 32768 := by decide
  have hwp := memInit_wp (C := True) (p := demo) (k := 3) (by omega) (fun _ => by omega) (by omega)
    (le_refl 3)
  cases hrun : memInit demo (startState demo) with
  | ok u t => exact ⟨t, rfl⟩
  | error x t => exact absurd trivial (hwp.error hrun).2

theorem mem_init_layout_fails_demo :
    ∃ t, memInit demo (startState demo) = .ok () t ∧ ¬ KernLayout demo (startState demo) t := by
  obtain ⟨t, ht⟩ := memInit_demo
  exact ⟨t, ht, mem_init_layout_fails demo (startState demo) t ht⟩

/-- On the demonstration machine `UPAGES` shows physical address 0, where `pages` is not. -/
theorem upages_shows_physical_zero :
    ∃ t, memInit demo (startState demo) = .ok () t ∧ 0 < t.npages * sizeofPageInfo ∧
      translate t t.kernPgdir (upages + BitVec.ofNat 32 0) = some 0 ∧
      t.pagesAt - kernbase + BitVec.ofNat 32 0 ≠ 0 := by
  obtain ⟨t, ht⟩ := memInit_demo
  have hr := memInit_ok ht
  have hpos := hr.npages_pos
  have hsize : sizeofPageInfo = 8 := rfl
  refine ⟨t, ht, by rw [hsize]; omega, ?_, ?_⟩
  · rw [BitVec.add_zero]
    exact hr.pages.start
  · rw [BitVec.add_zero]
    exact hr.pages.pages_ne_zero

end Jos
