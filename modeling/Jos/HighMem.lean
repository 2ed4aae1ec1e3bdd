import Jos.BootMem

/-!
  A machine with more than 256MB of memory does not boot.

  The kernel's window covers frames below 65536. The self test of the page allocator writes to every
  free page, so it is enough that frame 65536 stays on the free list until then: taking it for a
  page table would panic as well. -/

namespace Jos

open Lib RefCount

/-- Frame 65536 exists and is free. -/
def HighFree (s : KState) : Prop :=
  65536 < s.npages ∧ ∃ L, FreeChain s L ∧ 65536 ∈ L ∧ ∀ f ∈ L, f < s.npages

section

variable {s t : KState} {L : List Nat} {f : Nat}

theorem HighFree.congr (h : HighFree s) (hn : t.npages = s.npages)
    (hl : t.pageFreeList = s.pageFreeList)
    (hp : ∀ f, (t.pages f).ppLink = (s.pages f).ppLink) : HighFree t := by
  obtain ⟨h1, L, h2, h3, h4⟩ := h
  exact ⟨by rw [hn]; exact h1, L, h2.congr hl hp, h3, by rw [hn]; exact h4⟩

theorem HighFree.setFrame (h : HighFree s) (f : Nat) (p : Page) : HighFree (s.setFrame f p) :=
  h.congr rfl rfl fun _ => rfl

theorem kaddr_high {pa : Word} :
    wp (kaddr pa) (fun f t => t = s ∧ f = pgnum pa ∧ pgnum pa < 65536) (Short False) s := by
  unfold kaddr
  simp only [wp_bind, wp_get, wp_ite, wp_throw, wp_pure, short_panic, not_false_eq_true,
    implies_true, true_and]
  intro h
  omega

theorem pgnum_high : pgnum (page2pa 65536) = 65536 := pgnum_page2pa (by decide)

/-- Zeroing a page keeps frame 65536 free: it cannot be zeroed itself. -/
theorem pageAlloc_high (h : HighFree s) :
    wp (pageAlloc true) (fun _ t => HighFree t) (Short False) s := by
  obtain ⟨h1, L, h2, h3, h4⟩ := h
  have hh : s.pageFreeList = L.head? := h2.1.head_eq
  unfold pageAlloc
  simp only [wp_bind, wp_get]
  cases L with
  | nil => cases h3
  | cons f L =>
    rw [hh]
    simp only [List.head?_cons, wp_bind, wp_set, if_true]
    refine kaddr_high.mono (fun g t ht => ?_) fun _ _ hR => hR
    obtain ⟨rfl, -, hlt⟩ := ht
    have hf : f ≠ 65536 := by
      rintro rfl
      rw [pgnum_high] at hlt
      exact lt_irrefl _ hlt
    have hpop : HighFree (s.pop f) :=
      ⟨h1, L, h2.pop, (List.mem_cons.mp h3).resolve_left (Ne.symm hf),
        fun x hx => h4 x (List.mem_cons_of_mem f hx)⟩
    simp only [wp_modify, wp_pure]
    exact hpop.setFrame _ _

theorem pgdirWalk_high {d : Nat} {va : Word} (create : Bool) (h : HighFree s) :
    wp (pgdirWalk d va create) (fun _ t => HighFree t) (Short False) s := by
  have hte : ∀ {u : KState}, HighFree u →
      wp (tableEntry d va) (fun _ t => HighFree t) (Short False) u := by
    intro u hu
    unfold tableEntry
    simp only [wp_bind, wp_get, wp_pure]
    exact kaddr_high.mono (fun _ t ht => ht.1 ▸ hu) fun _ _ hR => hR
  unfold pgdirWalk
  simp only [wp_bind, wp_get, wp_ite, wp_pure]
  refine ⟨fun _ => ⟨fun hc => ?_, fun _ => h⟩, fun _ => hte h⟩
  refine (pageAlloc_high h).mono (fun r t ht => ?_) fun _ _ hR => hR
  cases r with
  | none => exact (wp_pure _).mpr ht
  | some f =>
    simp only [wp_bind, ppIncref, wp_modify]
    refine hte (HighFree.congr ht rfl rfl fun g => ?_)
    by_cases hg : g = f
    · subst hg; simp [KState.poke, KState.setPage]
    · simp [KState.poke, KState.setPage, hg]

theorem bootMapLoop_high {d : Nat} {perm : Word} : ∀ (n : Nat) {va pa : Word} {s : KState},
    HighFree s → wp (bootMapLoop d perm n va pa) (fun _ t => HighFree t) (Short False) s
  | 0, _, _, s, h => (wp_pure _).mpr h
  | n + 1, va, pa, s, h => by
    unfold bootMapLoop
    rw [wp_bind]
    refine (pgdirWalk_high true h).mono (fun r t ht => ?_) fun _ _ hR => hR
    cases r with
    | none => simp
    | some e =>
      simp only [wp_bind, wp_modify]
      exact bootMapLoop_high n (ht.setFrame _ _)

theorem mmioMapRegion_high {pa size : Word} (h : HighFree s) :
    wp (mmioMapRegion pa size) (fun _ t => HighFree t) (Short False) s := by
  unfold mmioMapRegion bootMapRegion
  simp only [wp_bind, wp_get, wp_ite, wp_throw, short_panic, not_false_eq_true, implies_true,
    true_and, wp_modify, wp_pure]
  intro _
  exact (bootMapLoop_high _ h).mono (fun _ t ht => ht.congr rfl rfl fun _ => rfl) fun _ _ hR => hR

theorem clearKernPte_high {va : Word} (h : HighFree s) :
    wp (clearKernPte va) (fun _ t => HighFree t) (Short False) s := by
  unfold clearKernPte
  simp only [wp_bind, wp_get]
  refine (pgdirWalk_high false h).mono (fun r t ht => ?_) fun _ _ hR => hR
  cases r with
  | none => simp
  | some e => exact (wp_modify _).mpr (ht.setFrame _ _)

/-- Writing to frame 65536 panics; writing to another free page keeps it free. -/
theorem scribble_high (h : HighFree s) :
    wp (scribble f) (fun _ t => HighFree t ∧ f ≠ 65536) (Short False) s := by
  unfold scribble page2kva
  rw [wp_bind]
  refine kaddr_high.mono (fun g t ht => ?_) fun _ _ hR => hR
  obtain ⟨rfl, -, hlt⟩ := ht
  rw [wp_modify]
  refine ⟨h.setFrame _ _, ?_⟩
  rintro rfl
  rw [pgnum_high] at hlt
  exact lt_irrefl _ hlt

theorem scribbles_high {l : List Nat} (h : HighFree s) :
    wp (l.forM scribble) (fun _ t => HighFree t ∧ 65536 ∉ l) (Short False) s := by
  refine (wp.forM (I := fun r t => HighFree t ∧ (65536 ∈ l → 65536 ∈ r))
    (fun f r t ht => ?_) ⟨h, id⟩).mono (fun _ t ht => ⟨ht.1, fun hm => ?_⟩) fun _ _ hR => hR
  · refine (scribble_high ht.1).mono (fun _ u hu => ⟨hu.1, fun hm => ?_⟩) fun _ _ hR => hR
    exact (List.mem_cons.mp (ht.2 hm)).resolve_left (Ne.symm hu.2)
  · exact absurd (ht.2 hm) (by simp)

theorem checkPageFreeList_high (onlyLow : Bool) (h : HighFree s) :
    wp (checkPageFreeList onlyLow) (fun _ t => HighFree t ∧ onlyLow = true) (Short False) s := by
  obtain ⟨h1, L, h2, h3, h4⟩ := h
  have hlen : L.length ≤ s.npages := by
    have hsub : L ⊆ List.range s.npages := fun f hf => List.mem_range.mpr (h4 f hf)
    simpa using (h2.2.subperm hsub).length_le
  have hlist : freeListFrom s s.npages s.pageFreeList = L := freeListFrom_eq h2.1 hlen
  unfold checkPageFreeList
  simp only [wp_bind, wp_get, hlist, wp_ite]
  refine ⟨fun ht => ?_, fun _ => ?_⟩
  · have hp := lowFirst_perm L
    have hl := linkList_spec s (hp.nodup_iff.mpr h2.2)
    rw [wp_set]
    have hh : HighFree (linkList s (L.filter lowPage ++ L.filter fun f => !lowPage f)) :=
      ⟨by rw [hl.only.npages]; exact h1, _, ⟨hl.chain, hp.nodup_iff.mpr h2.2⟩,
        hp.mem_iff.mpr h3, fun f hf => by rw [hl.only.npages]; exact h4 f (hp.mem_iff.mp hf)⟩
    exact (scribbles_high hh).mono (fun _ t hx => ⟨hx.1, ht⟩) fun _ _ hR => hR
  · exact (scribbles_high ⟨h1, L, h2, h3, h4⟩).mono (fun _ t hx => absurd h3 hx.2) fun _ _ hR => hR

/-- `page_free` links the page in front. -/
theorem pageFree_high {f : Nat} : wp (pageFree f) (fun _ t => t = s.push f) (Short False) s := by
  unfold pageFree
  simp only [wp_bind, wp_get, wp_ite, wp_throw, short_panic, not_false_eq_true, implies_true,
    true_and, wp_set]
  exact fun _ _ => rfl

theorem takePage_high (h : FreeChain s L) :
    wp takePage (fun f t => t = s.pop f ∧ ∃ L', L = f :: L') (Short False) s := by
  have hh : s.pageFreeList = L.head? := h.1.head_eq
  unfold takePage pageAlloc
  simp only [wp_bind, wp_get]
  cases L with
  | nil => rw [hh]; simp
  | cons f L =>
    rw [hh]
    simp only [List.head?_cons, wp_bind, wp_set, wp_pure, Bool.false_eq_true, if_false]
    exact ⟨rfl, L, rfl⟩

theorem mem_swap {a b c x : Nat} {l : List Nat} :
    x ∈ c :: b :: a :: l ↔ x ∈ a :: b :: c :: l := by
  simp only [List.mem_cons]
  tauto

theorem checkPage_high (h : HighFree s) :
    wp checkPage (fun _ t => HighFree t) (Short False) s := by
  obtain ⟨h1, L, h2, h3, h4⟩ := h
  unfold checkPage
  rw [wp_bind]
  refine (takePage_high h2).mono (fun p0 t0 ht0 => ?_) fun _ _ hR => hR
  obtain ⟨rfl, L0, rfl⟩ := ht0
  rw [wp_bind]
  refine (takePage_high h2.pop).mono (fun p1 t1 ht1 => ?_) fun _ _ hR => hR
  obtain ⟨rfl, L1, rfl⟩ := ht1
  rw [wp_bind]
  refine (takePage_high h2.pop.pop).mono (fun p2 t2 ht2 => ?_) fun _ _ hR => hR
  obtain ⟨rfl, L2, rfl⟩ := ht2
  have hnd := h2.2
  simp only [List.nodup_cons, List.mem_cons, not_or] at hnd
  obtain ⟨⟨h01, h02, h0⟩, ⟨h12, h1'⟩, h2', -⟩ := hnd
  -- giving them back
  have hc := ((h2.pop.pop.pop.push h0).push (f := p1) (by simp [Ne.symm h01, h1'])).push
    (f := p2) (by simp [Ne.symm h02, Ne.symm h12, h2'])
  rw [wp_bind]
  refine pageFree_high.mono (fun _ t3 ht3 => ?_) fun _ _ hR => hR
  subst ht3
  rw [wp_bind]
  refine pageFree_high.mono (fun _ t4 ht4 => ?_) fun _ _ hR => hR
  subst ht4
  rw [wp_bind]
  refine pageFree_high.mono (fun _ t5 ht5 => ?_) fun _ _ hR => hR
  subst ht5
  have ho : PmOnly s ((((((s.pop p0).pop p1).pop p2).push p0).push p1).push p2) :=
    (((((PmOnly.pop s p0).trans (.pop _ p1)).trans (.pop _ p2)).trans (.push _ p0)).trans
      (.push _ p1)).trans (.push _ p2)
  have h5 : HighFree ((((((s.pop p0).pop p1).pop p2).push p0).push p1).push p2) := by
    refine ⟨?_, _, hc, mem_swap.mpr h3, fun f hf => ?_⟩
    · rw [ho.npages]; exact h1
    · rw [ho.npages]; exact h4 f (mem_swap.mp hf)
  simp only [wp_bind]
  refine (mmioMapRegion_high h5).mono (fun mm1 t6 h6 => ?_) fun _ _ hR => hR
  refine (mmioMapRegion_high h6).mono (fun mm2 t7 h7 => ?_) fun _ _ hR => hR
  refine (clearKernPte_high h7).mono (fun _ t8 h8 => ?_) fun _ _ hR => hR
  refine (clearKernPte_high h8).mono (fun _ t9 h9 => ?_) fun _ _ hR => hR
  exact clearKernPte_high h9

theorem memInitMaps_high (p : BootParams) (h : HighFree s) :
    wp (memInitMaps p) (fun _ t => HighFree t) (Short False) s := by
  unfold memInitMaps bootMapRegion
  simp only [wp_bind, wp_get]
  refine (bootMapLoop_high _ h).mono (fun _ t1 h1 => ?_) fun _ _ hR => hR
  refine (bootMapLoop_high _ h1).mono (fun _ t2 h2 => ?_) fun _ _ hR => hR
  refine (bootMapLoop_high _ h2).mono (fun _ t3 h3 => ?_) fun _ _ hR => hR
  refine (bootMapLoop_high _ h3).mono (fun _ t4 h4 => ?_) fun _ _ hR => hR
  unfold memInitMp
  refine wp.forM (I := fun _ t => HighFree t) (fun i l u hu => ?_) h4
  simp only [wp_bind, wp_get, bootMapRegion]
  exact bootMapLoop_high _ hu

/-- With memory beyond the kernel's window, `mem_init` does not return. -/
theorem memInit_high {p : BootParams} (hn : 65536 < detectMemory p) :
    wp (memInit p) (fun _ _ => False) (Short False) (startState p) := by
  unfold memInit
  rw [wp_bind]
  refine (memInitArrays_wp p fun hc => hc.elim).mono (fun _ s1 h1 => ?_) fun _ _ hR => hR
  rw [wp_bind]
  refine (pageInit_wp h1 fun hc => hc.elim).mono (fun _ s2 h2 => ?_) fun _ _ hR => hR
  have hnp : s1.npages = detectMemory p := h1.npages
  have hh : HighFree s2 := by
    refine ⟨by rw [h2.loop.only.npages]; omega, _, ⟨h2.loop.chain, nodup_initFree _ _⟩, ?_,
      fun f hf => ?_⟩
    · have := h2.high.2
      rw [mem_initFree]
      refine ⟨by omega, ?_⟩
      simp only [pageReserved, Bool.or_eq_false_iff, Bool.and_eq_false_iff,
        decide_eq_false_iff_not]
      exact ⟨⟨by omega, Or.inr (by omega)⟩, by omega⟩
    · rw [h2.loop.only.npages]
      exact (mem_initFree.mp hf).1
  simp only [wp_bind]
  refine (checkPageFreeList_high true hh).mono (fun _ s3 h3 => ?_) fun _ _ hR => hR
  refine (checkPage_high h3.1).mono (fun _ s4 h4 => ?_) fun _ _ hR => hR
  refine (memInitMaps_high p h4).mono (fun _ s5 h5 => ?_) fun _ _ hR => hR
  rw [wp_modify]
  have h6 : HighFree (s5.lcr3 p.bsp s5.kernPgdir) := h5.congr rfl rfl fun _ => rfl
  exact (checkPageFreeList_high false h6).mono (fun _ t ht => absurd ht.2 (by simp))
    fun _ _ hR => hR

end

end Jos
