import Jos.Tables

/-!
  The page allocator (`page_alloc`, `page_free`, `page_decref` and the counters).

  Each operation is given as the update of the state that it amounts to, with what the update does
  to the allocator's invariant. -/

namespace Jos

open Lib RefCount

namespace KState

/-- Everything but physical memory, its allocator and the cached translations. -/
def rest (s : KState) : KState :=
  { s with pages := fun _ => ⟨none, 0⟩, pageFreeList := none, mem := fun _ _ => 0
           tlb := fun _ => ⟨fun _ _ => false, fun _ _ => false⟩ }

/-- `page_alloc` without zeroing, when `f` heads the free list. -/
def pop (s : KState) (f : Nat) : KState :=
  { s.setPage f { s.pages f with ppLink := none } with pageFreeList := (s.pages f).ppLink }

/-- `page_free`. -/
def push (s : KState) (f : Nat) : KState :=
  { s.setPage f { s.pages f with ppLink := s.pageFreeList } with pageFreeList := some f }

/-- `pp_ref++`. -/
def incref (s : KState) (f : Nat) : KState :=
  s.setPage f { s.pages f with ppRef := (s.pages f).ppRef + 1 }

/-- `page_decref`. -/
def unref (s : KState) (f : Nat) : KState :=
  if (s.pages f).ppRef - 1 = 0 then
    (s.setPage f { s.pages f with ppRef := (s.pages f).ppRef - 1 }).push f
  else s.setPage f { s.pages f with ppRef := (s.pages f).ppRef - 1 }

/-- `tlb_invalidate`. -/
def flush (s : KState) (c : CpuIdx) (pgdir : Nat) (va : Word) : KState :=
  match s.curenv c with
  | none => s.invlpg c va
  | some e => if (s.envs e).envPgdir = some pgdir then s.invlpg c va else s

end KState

/-- Only physical memory, its allocator and the cached translations may differ. -/
def PmOnly (s t : KState) : Prop := t.rest = s.rest

/-- The limits of managed memory, the kernel's directory and its arrays are fixed once the kernel
    runs. -/
structure SameLimits (s t : KState) : Prop where
  npages : t.npages = s.npages
  nextfree : t.nextfree = s.nextfree
  kernPgdir : t.kernPgdir = s.kernPgdir
  pagesAt : t.pagesAt = s.pagesAt
  envsAt : t.envsAt = s.envsAt

theorem SameLimits.managed {s t : KState} (h : SameLimits s t) : Managed t = Managed s := by
  funext f; simp [Managed, h.npages, h.nextfree]

theorem SameLimits.refl (s : KState) : SameLimits s s := ⟨rfl, rfl, rfl, rfl, rfl⟩

theorem SameLimits.trans {s t u : KState} (h : SameLimits s t) (h' : SameLimits t u) :
    SameLimits s u :=
  ⟨h'.npages.trans h.npages, h'.nextfree.trans h.nextfree, h'.kernPgdir.trans h.kernPgdir,
    h'.pagesAt.trans h.pagesAt, h'.envsAt.trans h.envsAt⟩

namespace PmOnly

variable {s t u : KState}

theorem refl (s : KState) : PmOnly s s := rfl

theorem trans (h : PmOnly s t) (h' : PmOnly t u) : PmOnly s u := Eq.trans h' h

theorem npages (h : PmOnly s t) : t.npages = s.npages :=
  show t.rest.npages = s.rest.npages from congrArg _ h

theorem kernPgdir (h : PmOnly s t) : t.kernPgdir = s.kernPgdir :=
  show t.rest.kernPgdir = s.rest.kernPgdir from congrArg _ h

theorem envs (h : PmOnly s t) : t.envs = s.envs :=
  show t.rest.envs = s.rest.envs from congrArg _ h

theorem envFreeList (h : PmOnly s t) : t.envFreeList = s.envFreeList :=
  show t.rest.envFreeList = s.rest.envFreeList from congrArg _ h

theorem cpus (h : PmOnly s t) : t.cpus = s.cpus :=
  show t.rest.cpus = s.rest.cpus from congrArg _ h

theorem cr3 (h : PmOnly s t) : t.cr3 = s.cr3 :=
  show t.rest.cr3 = s.rest.cr3 from congrArg _ h

theorem nextfree (h : PmOnly s t) : t.nextfree = s.nextfree :=
  show t.rest.nextfree = s.rest.nextfree from congrArg _ h

theorem mmioBase (h : PmOnly s t) : t.mmioBase = s.mmioBase :=
  show t.rest.mmioBase = s.rest.mmioBase from congrArg _ h

theorem dirFrame (h : PmOnly s t) : dirFrame t = dirFrame s := by
  funext o; cases o <;> simp [Jos.dirFrame, h.envs, h.kernPgdir]

theorem envsAt (h : PmOnly s t) : t.envsAt = s.envsAt :=
  show t.rest.envsAt = s.rest.envsAt from congrArg _ h

theorem pagesAt (h : PmOnly s t) : t.pagesAt = s.pagesAt :=
  show t.rest.pagesAt = s.rest.pagesAt from congrArg _ h

theorem limits (h : PmOnly s t) : SameLimits s t :=
  ⟨h.npages, h.nextfree, h.kernPgdir, h.pagesAt, h.envsAt⟩

theorem managed (h : PmOnly s t) : Managed t = Managed s := h.limits.managed

theorem curenv (h : PmOnly s t) : t.curenv = s.curenv := by
  funext c; simp [KState.curenv, h.cpus]

theorem setFrame (s : KState) (f : Nat) (p : Page) : PmOnly s (s.setFrame f p) := rfl
theorem poke (s : KState) (f : Nat) (i : Idx) (w : Word) : PmOnly s (s.poke f i w) := rfl
theorem pop (s : KState) (f : Nat) : PmOnly s (s.pop f) := rfl
theorem push (s : KState) (f : Nat) : PmOnly s (s.push f) := rfl
theorem incref (s : KState) (f : Nat) : PmOnly s (s.incref f) := rfl

theorem unref (s : KState) (f : Nat) : PmOnly s (s.unref f) := by
  unfold KState.unref; split <;> rfl

theorem flush (s : KState) (c : CpuIdx) (pd : Nat) (va : Word) : PmOnly s (s.flush c pd va) := by
  unfold KState.flush
  split
  · rfl
  · split <;> rfl

end PmOnly

/-! ### What the updates leave alone -/

section

variable (s : KState) (f : Nat) (c : CpuIdx) (pd : Nat) (va : Word)

@[simp] theorem pop_mem : (s.pop f).mem = s.mem := rfl
@[simp] theorem push_mem : (s.push f).mem = s.mem := rfl
@[simp] theorem incref_mem : (s.incref f).mem = s.mem := rfl
@[simp] theorem incref_freeList : (s.incref f).pageFreeList = s.pageFreeList := rfl
@[simp] theorem unref_mem : (s.unref f).mem = s.mem := by unfold KState.unref; split <;> rfl

@[simp] theorem flush_mem : (s.flush c pd va).mem = s.mem := by
  unfold KState.flush
  split
  · rfl
  · split <;> rfl

@[simp] theorem flush_pages : (s.flush c pd va).pages = s.pages := by
  unfold KState.flush
  split
  · rfl
  · split <;> rfl

@[simp] theorem flush_freeList : (s.flush c pd va).pageFreeList = s.pageFreeList := by
  unfold KState.flush
  split
  · rfl
  · split <;> rfl

theorem pages_incref_of_ne {g : Nat} (h : g ≠ f) : (s.incref f).pages g = s.pages g :=
  Function.update_of_ne h _ _

theorem pages_unref_of_ne {g : Nat} (h : g ≠ f) : (s.unref f).pages g = s.pages g := by
  unfold KState.unref
  split <;> simp [KState.push, KState.setPage, Function.update_of_ne h]

end

/-- Releasing a page looks at the page array and the free list only. -/
theorem unref_congr {s t : KState} (hp : t.pages = s.pages)
    (hl : t.pageFreeList = s.pageFreeList) (f : Nat) :
    (t.unref f).pages = (s.unref f).pages ∧
      (t.unref f).pageFreeList = (s.unref f).pageFreeList := by
  unfold KState.unref
  rw [hp]
  split <;> simp [KState.push, KState.setPage, hp, hl]

/-- A state that differs only in ways `target` does not look at. -/
theorem target_of_mem {s t : KState} (h : PmOnly s t) (hm : t.mem = s.mem) : target t = target s :=
  target_congr (fun _ => by rw [h.envs]) h.kernPgdir hm

theorem tables_of_mem {s t : KState} (h : PmOnly s t) (hm : t.mem = s.mem) :
    tabFrame t = tabFrame s ∧ pteAt t = pteAt s := by
  have ht : tabFrame t = tabFrame s := by
    funext o i; unfold tabFrame pdeAt; rw [h.dirFrame, hm]
  refine ⟨ht, ?_⟩
  funext o i j; unfold pteAt; rw [ht, hm]

/-! ### The operations as updates -/

/-- A managed frame is inside the window through which the kernel reaches memory. -/
theorem PageInv.lt_window {s : KState} {L : List Nat} {H : Finset Nat} (h : PageInv s L H) {f : Nat}
    (hf : Managed s f) : f < s.npages ∧ f < 65536 :=
  ⟨hf.1, lt_of_lt_of_le hf.1 h.window⟩

theorem kaddr_run {s : KState} {pa : Word} (hn : pgnum pa < s.npages) (hw : s.npages ≤ 65536) :
    kaddr pa s = .ok (pgnum pa) s := by
  have : ¬ (s.npages ≤ pgnum pa ∨ 65536 ≤ pgnum pa) := by omega
  simp only [kaddr, run_bind, run_get, run_ite, this, if_false, run_pure]

theorem page2kva_run {s : KState} {f : Nat} (hn : f < s.npages) (hw : s.npages ≤ 65536) :
    page2kva f s = .ok f s := by
  have hf : pgnum (page2pa f) = f := pgnum_page2pa (by omega)
  rw [page2kva, kaddr_run (by rw [hf]; exact hn) hw, hf]

theorem pa2page_run {s : KState} {pa : Word} (hn : pgnum pa < s.npages) :
    pa2page pa s = .ok (pgnum pa) s := by
  have : ¬ s.npages ≤ pgnum pa := by omega
  simp only [pa2page, run_bind, run_get, run_ite, this, if_false, run_pure]

theorem pageAlloc_nil {s : KState} {H : Finset Nat} (h : PageInv s [] H) (zero : Bool) :
    pageAlloc zero s = .ok none s := by
  have hn : s.pageFreeList = none := h.chain
  simp only [pageAlloc, run_bind, run_get, hn, run_pure]

/-- `page_alloc` takes the head of the free list. -/
theorem pageAlloc_run {s : KState} {f : Nat} (hf : s.pageFreeList = some f) (hn : f < s.npages)
    (hw : s.npages ≤ 65536) (zero : Bool) :
    pageAlloc zero s
      = .ok (some f) (if zero then (s.pop f).setFrame f fun _ => 0 else s.pop f) := by
  simp only [pageAlloc, run_bind, run_get, hf, run_set]
  cases zero with
  | false => rfl
  | true =>
    have hk : page2kva f (s.pop f) = .ok f (s.pop f) := page2kva_run hn hw
    simp only [if_true, run_bind]
    rw [show { s.setPage f { s.pages f with ppLink := none } with
      pageFreeList := (s.pages f).ppLink } = s.pop f from rfl, hk]
    rfl

theorem pageAlloc_cons {s : KState} {f : Nat} {L : List Nat} {H : Finset Nat}
    (h : PageInv s (f :: L) H) (zero : Bool) :
    pageAlloc zero s
      = .ok (some f) (if zero then (s.pop f).setFrame f fun _ => 0 else s.pop f) :=
  pageAlloc_run h.chain.1 (h.counted.managed f (List.mem_cons_self ..)).1 h.window zero

theorem pageFree_run {s : KState} {f : Nat} (hr : (s.pages f).ppRef = 0)
    (hl : (s.pages f).ppLink = none) : pageFree f s = .ok () (s.push f) := by
  have hr' : ¬ (s.pages f).ppRef ≠ 0 := not_not.mpr hr
  have hl' : ¬ (s.pages f).ppLink ≠ none := not_not.mpr hl
  simp only [pageFree, run_bind, run_get, run_ite, hr', hl', if_false]
  rfl

theorem ppIncref_run (s : KState) (f : Nat) : ppIncref f s = .ok () (s.incref f) := rfl

theorem pageDecref_run {s : KState} {f : Nat} (hl : (s.pages f).ppLink = none) :
    pageDecref f s = .ok () (s.unref f) := by
  simp only [pageDecref, run_bind, run_modify, run_get, run_ite]
  have hr : ((s.setPage f { s.pages f with ppRef := (s.pages f).ppRef - 1 }).pages f).ppRef
      = (s.pages f).ppRef - 1 := by simp [KState.setPage]
  rw [hr, KState.unref]
  split
  · rename_i h0
    exact pageFree_run (hr.trans h0) (by simpa [KState.setPage] using hl)
  · rfl

theorem tlbInvalidate_run (s : KState) (c : CpuIdx) (pd : Nat) (va : Word) :
    tlbInvalidate c pd va s = .ok () (s.flush c pd va) := by
  unfold tlbInvalidate KState.flush
  simp only [run_bind, run_get]
  cases s.curenv c with
  | none => rfl
  | some e =>
    simp only [run_ite]
    split <;> rfl

/-! ### The free list -/

/-- The free list is the chain `L`, without repetitions. -/
def FreeChain (s : KState) (L : List Nat) : Prop :=
  Chain (fun f => (s.pages f).ppLink) s.pageFreeList L ∧ L.Nodup

section

variable {s t : KState} {L : List Nat} {f : Nat}

theorem FreeChain.pop (h : FreeChain s (f :: L)) : FreeChain (s.pop f) L := by
  obtain ⟨hf, hnd⟩ := List.nodup_cons.mp h.2
  refine ⟨h.1.2.congr fun g hg => ?_, hnd⟩
  have hgf : g ≠ f := fun e => hf (e ▸ hg)
  simp [KState.pop, KState.setPage, hgf]

theorem FreeChain.push (h : FreeChain s L) (hf : f ∉ L) : FreeChain (s.push f) (f :: L) := by
  refine ⟨(h.1.push hf).congr fun g _ => ?_, List.nodup_cons.mpr ⟨hf, h.2⟩⟩
  by_cases hgf : g = f
  · subst hgf; simp [KState.push, KState.setPage]
  · simp [KState.push, KState.setPage, hgf]

/-- The free list depends on the links only. -/
theorem FreeChain.congr (h : FreeChain s L) (hl : t.pageFreeList = s.pageFreeList)
    (hp : ∀ f, (t.pages f).ppLink = (s.pages f).ppLink) : FreeChain t L :=
  ⟨by rw [hl]; exact h.1.congr fun f _ => hp f, h.2⟩

/-- Dropping a reference frees the page with the last one. -/
theorem FreeChain.unref (h : FreeChain s L) (hf : f ∉ L) :
    FreeChain (s.unref f) (if (s.pages f).ppRef - 1 = 0 then f :: L else L) := by
  have hset : FreeChain (s.setPage f { s.pages f with ppRef := (s.pages f).ppRef - 1 }) L := by
    refine h.congr rfl fun g => ?_
    by_cases hg : g = f
    · subst hg; simp [KState.setPage]
    · simp [KState.setPage, hg]
  unfold KState.unref
  split
  · exact hset.push hf
  · exact hset

end

/-! ### The updates and the invariant -/

section Inv

variable {s t : KState} {L : List Nat} {H : Finset Nat}

/-- A page outside the free list has a null link, so it can be freed. -/
theorem PageInv.link_of_target (h : PageInv s L H) {r : Slot} {f : Nat} (hr : target s r = some f) :
    (s.pages f).ppLink = none :=
  h.unlinked f (h.counted.target r f hr) (h.counted.not_free_of_target hr)

theorem PageInv.pop {f : Nat} (h : PageInv s (f :: L) H) : PageInv (s.pop f) L (insert f H) where
  chain := by
    have hf := (List.nodup_cons.mp h.counted.nodup).1
    refine h.chain.2.congr fun g hg => ?_
    have hgf : g ≠ f := fun e => hf (e ▸ hg)
    simp [KState.pop, KState.setPage, hgf]
  unlinked g hM hg := by
    by_cases hgf : g = f
    · subst hgf; simp [KState.pop, KState.setPage]
    · have := h.unlinked g hM (by simp [hgf, hg])
      simpa [KState.pop, KState.setPage, hgf] using this
  counted := by
    rw [target_of_mem (PmOnly.pop s f) rfl]
    refine h.counted.pop.congr rfl fun g _ => ?_
    by_cases hgf : g = f
    · subst hgf; simp [KState.pop, KState.setPage]
    · simp [KState.pop, KState.setPage, hgf]
  sole := by rw [target_of_mem (PmOnly.pop s f) rfl]; exact h.sole
  kern := h.kern
  window := h.window

theorem PageInv.push {f : Nat} (h : PageInv s L H) (hf : f ∈ H) :
    PageInv (s.push f) (f :: L) (H.erase f) where
  chain := by
    have hfL : f ∉ L := (List.nodup_cons.mp (h.counted.push hf).nodup).1
    refine (h.chain.push hfL).congr fun g hg => ?_
    by_cases hgf : g = f
    · subst hgf; simp [KState.push, KState.setPage]
    · simp [KState.push, KState.setPage, hgf]
  unlinked g hM hg := by
    rw [List.mem_cons, not_or] at hg
    simpa [KState.push, KState.setPage, hg.1] using h.unlinked g hM hg.2
  counted := by
    rw [target_of_mem (PmOnly.push s f) rfl]
    refine (h.counted.push hf).congr rfl fun g _ => ?_
    by_cases hgf : g = f
    · subst hgf; simp [KState.push, KState.setPage]
    · simp [KState.push, KState.setPage, hgf]
  sole := by rw [target_of_mem (PmOnly.push s f) rfl]; exact h.sole
  kern := h.kern
  window := h.window

/-- Zeroing or filling a frame that holds no table. -/
theorem PageInv.setFrame {f : Nat} (h : PageInv s L H) (hf : NotTable s f) (p : Page) :
    PageInv (s.setFrame f p) L H :=
  h.congr (hf.target_setFrame p) rfl rfl rfl rfl rfl

theorem PageInv.notTable_of_free (h : PageInv s L H) {f : Nat} (hf : f ∈ L) : NotTable s f :=
  ⟨fun e => h.kern (e ▸ h.counted.managed f hf), fun r _ => h.counted.not_target_of_free hf r⟩

theorem PageInv.notTable_of_held (h : PageInv s L H) {f : Nat} (hf : f ∈ H) : NotTable s f :=
  ⟨fun e => h.kern (e ▸ (h.counted.inHand f hf).1), fun r _ => (h.counted.inHand f hf).2 r⟩

theorem PageInv.notTable_of_pte (h : PageInv s L H) {e : EnvIdx} {i j : Idx} {f : Nat}
    (hf : target s (.pte e i j) = some f) : NotTable s f :=
  ⟨fun e' => h.kern (e' ▸ h.counted.target _ f hf), h.separate.pte_not_table hf⟩

/-- Entering a counted reference to `f` into the empty slot `r`. -/
theorem PageInv.assign {r : Slot} {f : Nat} (h : PageInv s L H) (hr : target s r = none)
    (hM : Managed s f) (hf : f ∉ L) (hmax : (s.pages f).ppRef ≠ 65535)
    (hsole : Sole Slot.IsTable (Function.update (target s) r (some f))) (ho : SameLimits s t)
    (ht : target t = Function.update (target s) r (some f)) (hp : t.pages = (s.incref f).pages)
    (hl : t.pageFreeList = s.pageFreeList) : PageInv t L (H.erase f) := by
  have hlink : ∀ g, (t.pages g).ppLink = (s.pages g).ppLink := by
    intro g; rw [hp]
    by_cases hgf : g = f
    · subst hgf; simp [KState.incref, KState.setPage]
    · rw [pages_incref_of_ne s f hgf]
  have hlt : refs (target s) f + 1 < 2 ^ 16 := by
    have hx : ((s.pages f).ppRef).toNat = refs (target s) f := h.counted.exact f hM
    have hne : ((s.pages f).ppRef).toNat ≠ 65535 := fun e => hmax (BitVec.eq_of_toNat_eq e)
    have := ((s.pages f).ppRef).isLt
    omega
  refine ⟨?_, ?_, ?_, ?_, ?_, ?_⟩
  · rw [hl]
    exact h.chain.congr fun g _ => hlink g
  · intro g hg hgL
    rw [hlink]
    exact h.unlinked g (ho.managed ▸ hg) hgL
  · rw [ht, ho.managed]
    refine (h.counted.assign hr hM hf hlt).congr rfl fun g _ => ?_
    rw [hp]
    by_cases hgf : g = f
    · subst hgf; simp [KState.incref, KState.setPage]
    · rw [pages_incref_of_ne s f hgf, Function.update_of_ne hgf]
  · rw [ht]; exact hsole
  · rw [ho.managed, ho.kernPgdir]; exact h.kern
  · rw [ho.npages]; exact h.window

/-- Clearing the slot `r`, which refers to `g`. -/
theorem PageInv.clear {r : Slot} {g : Nat} (h : PageInv s L H) (hr : target s r = some g)
    (ho : SameLimits s t) (ht : target t = Function.update (target s) r none)
    (hp : t.pages = (s.unref g).pages) (hl : t.pageFreeList = (s.unref g).pageFreeList) :
    PageInv t (if refs (target s) g = 1 then g :: L else L) H := by
  have hM := h.counted.target r g hr
  have hgL := h.counted.not_free_of_target hr
  have hx : ((s.pages g).ppRef).toNat = refs (target s) g := h.counted.exact g hM
  have hpos := refs_pos hr
  have hone : (s.pages g).ppRef - 1 = 0 ↔ refs (target s) g = 1 := by
    constructor
    · intro h0
      have : (s.pages g).ppRef = 1 := by
        rw [← BitVec.sub_add_cancel (s.pages g).ppRef 1, h0]; simp
      rw [← hx, this]; rfl
    · intro h1
      have : (s.pages g).ppRef = 1 := BitVec.eq_of_toNat_eq (by rw [hx, h1]; rfl)
      rw [this]; rfl
  have hunref : s.unref g = if refs (target s) g = 1
      then (s.setPage g { s.pages g with ppRef := (s.pages g).ppRef - 1 }).push g
      else s.setPage g { s.pages g with ppRef := (s.pages g).ppRef - 1 } := by
    simp only [KState.unref, hone]
  have hclear := h.counted.clear hr
  have hlink : ∀ f, f ≠ g → (t.pages f).ppLink = (s.pages f).ppLink := by
    intro f hf; rw [hp, pages_unref_of_ne s g hf]
  refine ⟨?_, ?_, ?_, ?_, ?_, ?_⟩
  · by_cases h1 : refs (target s) g = 1
    · rw [if_pos h1, hl, hunref, if_pos h1]
      refine ⟨rfl, ?_⟩
      rw [hp, hunref, if_pos h1]
      refine Chain.congr (n := fun f => (s.pages f).ppLink) ?_ fun f hf => ?_
      · simpa [KState.push, KState.setPage] using h.chain
      · have hfg : f ≠ g := fun e => hgL (e ▸ hf)
        simp [KState.push, KState.setPage, hfg]
    · rw [if_neg h1, hl, hunref, if_neg h1]
      refine h.chain.congr fun f hf => ?_
      exact hlink f fun e => hgL (e ▸ hf)
  · intro f hf hfL
    rw [ho.managed] at hf
    by_cases hfg : f = g
    · subst hfg
      by_cases h1 : refs (target s) f = 1
      · rw [if_pos h1] at hfL
        exact absurd (List.mem_cons_self ..) hfL
      · rw [hp, hunref, if_neg h1]
        simpa [KState.setPage] using h.unlinked f hf hgL
    · rw [hlink f hfg]
      refine h.unlinked f hf fun hfl => hfL ?_
      split
      · exact List.mem_cons_of_mem g hfl
      · exact hfl
  · rw [ht, ho.managed]
    refine hclear.congr rfl fun f _ => ?_
    rw [hp]
    by_cases hfg : f = g
    · subst hfg
      rw [Function.update_self, hunref]
      split <;> simp [KState.push, KState.setPage]
    · rw [pages_unref_of_ne s g hfg, Function.update_of_ne hfg]
  · rw [ht]; exact h.sole.clear r
  · rw [ho.managed, ho.kernPgdir]; exact h.kern
  · rw [ho.npages]; exact h.window

end Inv

end Jos
