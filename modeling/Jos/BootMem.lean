import Jos.KernMap

/-!
  `mem_init` sets up physical memory and the kernel's address space.

  The self tests leave memory as they found it, up to the order of the free list and the contents
  of free pages. -/

namespace Jos

open Lib RefCount

section

variable {C : Prop} {k : ℕ} {s t : KState} {L : List Nat} {H : Finset Nat}

/-! ### The self tests -/

/-- A change of the free list and of cached translations only. -/
theorem Booting.of_mem (h : Booting C k s) (ho : PmOnly s t) (hm : t.mem = s.mem)
    (hp : ∃ L, PageInv t L ∅ ∧ (C → missing s + k ≤ L.length)) :
    Booting C k t ∧ BootStep (fun _ => False) s t := by
  obtain ⟨htab, hpte⟩ := tables_of_mem ho hm
  obtain ⟨L, hL, hroom⟩ := hp
  have hmiss : missing t = missing s := by unfold missing; rw [htab]
  refine ⟨⟨⟨L, hL, by rw [hmiss]; exact hroom⟩, by rw [ho.envs]; exact h.envs,
    by rw [ho.cpus]; exact h.cpus, fun i j => by rw [hpte]; exact h.flags i j,
    fun i hi => by rw [ho.kernPgdir, hm]; exact h.pdes i hi, by rw [ho.mmioBase]; exact h.mmio⟩,
    .of_pmOnly ho, fun i _ => by rw [hm], fun i j _ => by rw [hpte]⟩

/-- Writing to a free page. -/
theorem Booting.setFrame {f : Nat} (h : Booting C k s) (hL : PageInv s L ∅) (hf : f ∈ L)
    (p : Page) : Booting C k (s.setFrame f p) ∧ BootStep (fun _ => False) s (s.setFrame f p) ∧
      PageInv (s.setFrame f p) L ∅ := by
  have hnt := hL.notTable_of_free hf
  have hinv := hL.setFrame hnt p
  have hker : (s.setFrame f p).mem s.kernPgdir = s.mem s.kernPgdir :=
    Function.update_of_ne (Ne.symm hnt.1) _ _
  have hmiss : missing (s.setFrame f p) = missing s := by
    unfold missing; rw [tabFrame_setFrame hnt.not_dir]
  obtain ⟨L₁, hL₁, hroom⟩ := h.page
  refine ⟨⟨⟨L, hinv, fun hC => ?_⟩, h.envs, h.cpus,
    fun i j => by rw [hnt.pteAt_setFrame]; exact h.flags i j, fun i hi => ?_, h.mmio⟩,
    ⟨.of_pmOnly (.setFrame s f p), fun i _ => by rw [hker],
      fun i j _ => by rw [hnt.pteAt_setFrame]⟩, hinv⟩
  · rw [hmiss, hL.unique hL₁]; exact hroom hC
  · rw [show (s.setFrame f p).kernPgdir = s.kernPgdir from rfl, hker]; exact h.pdes i hi

theorem scribbles_wp : ∀ {l : List Nat} {s : KState}, Booting C k s → PageInv s L ∅ → l ⊆ L →
    wp (l.forM scribble) (fun _ t => Booting C k t ∧ PmOnly s t ∧ BootStep (fun _ => False) s t)
      (Short C) s
  | [], s, h, _, _ => (wp_pure _).mpr ⟨h, .refl s, .refl _ s⟩
  | f :: l, s, h, hL, hl => by
    have hf := hl (List.mem_cons_self ..)
    have hlt := hL.lt_window (hL.counted.managed f hf)
    obtain ⟨h1, h2, h3⟩ := h.setFrame hL hf
      (fun i => if i.val < 32 then 0x97979797 else s.mem f i)
    show wp (scribble f >>= fun _ => l.forM scribble) _ _ s
    unfold scribble
    simp only [wp_bind]
    rw [wp_ok (page2kva_run hlt.1 hL.window)]
    simp only [wp_modify]
    exact (scribbles_wp h1 h3 fun g hg => hl (List.mem_cons_of_mem f hg)).mono
      (fun _ t ht => ⟨ht.1, (PmOnly.setFrame _ _ _).trans ht.2.1, h2.trans ht.2.2⟩) fun _ _ hR => hR

/-- The free list is no longer than there are pages. -/
theorem PageInv.length_le (h : PageInv s L H) : L.length ≤ s.npages := by
  have hsub : L ⊆ List.range s.npages := fun f hf =>
    List.mem_range.mpr (h.counted.managed f hf).1
  simpa using (h.counted.nodup.subperm hsub).length_le

/-- Relinking the free list in another order. -/
theorem PageInv.relink {l : List Nat} (h : PageInv s L H) (hp : l.Perm L) :
    PageInv (linkList s l) l H := by
  have hl := linkList_spec s (hp.nodup_iff.mpr h.counted.nodup)
  have htgt := target_of_mem hl.only hl.mem
  refine ⟨hl.chain, fun f hM hf => ?_, ?_, by rw [htgt]; exact h.sole, ?_, ?_⟩
  · rw [hl.off f hf]
    exact h.unlinked f (hl.only.managed ▸ hM) fun hx => hf (hp.mem_iff.mpr hx)
  · rw [htgt, hl.only.managed]
    exact (h.counted.perm hp).congr rfl fun f _ => hl.ref f
  · rw [hl.only.managed, hl.only.kernPgdir]; exact h.kern
  · rw [hl.only.npages]; exact h.window

theorem checkPageFreeList_wp (h : Booting C k s) (onlyLow : Bool) :
    wp (checkPageFreeList onlyLow) (fun _ t => Booting C k t ∧ PmOnly s t ∧
      BootStep (fun _ => False) s t) (Short C) s := by
  obtain ⟨L, hL, hroom⟩ := h.page
  have hlist : freeListFrom s s.npages s.pageFreeList = L :=
    freeListFrom_eq hL.chain hL.length_le
  unfold checkPageFreeList
  simp only [wp_bind, wp_get, hlist, wp_ite]
  refine ⟨fun _ => ?_, fun _ => scribbles_wp h hL fun _ hf => hf⟩
  have hp := lowFirst_perm L
  have hl := linkList_spec s (hp.nodup_iff.mpr hL.counted.nodup)
  have hinv := hL.relink hp
  obtain ⟨h1, h2⟩ := h.of_mem hl.only hl.mem ⟨_, hinv, fun hC => by
    rw [hp.length_eq]; exact hroom hC⟩
  rw [wp_set]
  exact (scribbles_wp h1 hinv fun f hf => List.mem_append_left _ hf).mono
    (fun _ t ht => ⟨ht.1, hl.only.trans ht.2.1, h2.trans ht.2.2⟩) fun _ _ hR => hR

/-- A page that is in hand can be freed. -/
theorem pageFree_held {f : Nat} (h : PageInv s L H) (hf : f ∈ H) :
    pageFree f s = .ok () (s.push f) := by
  obtain ⟨hM, h0⟩ := h.counted.inHand f hf
  exact pageFree_run (h.counted.ref_held hM h0)
    (h.unlinked f hM fun hx => ((h.counted.free_iff f hM).mp hx).2 hf)

theorem takePage_cons {f : Nat} (h : PageInv s (f :: L) H) : takePage s = .ok f (s.pop f) := by
  simp only [takePage, run_bind, pageAlloc_cons h]
  rfl

/-- Taking three pages and giving them back in some order. The three pages are distinct. -/
theorem takeThree_wp {x : Nat → Nat → Nat → K Unit} {Q : Unit → KState → Prop} (h : Booting C k s)
    (hC : C → 3 ≤ k)
    (hx : ∀ p0 p1 p2 t, PmOnly s t → t.mem = s.mem →
      (∃ L, PageInv t L {p2, p1, p0} ∧ (C → missing s + k ≤ L.length + 3)) →
      p1 ≠ p0 → p2 ≠ p0 → p2 ≠ p1 → wp (x p0 p1 p2) Q (Short C) t) :
    wp (do
      let pp0 ← takePage
      let pp1 ← takePage
      let pp2 ← takePage
      x pp0 pp1 pp2) Q (Short C) s := by
  have short : ∀ {u : KState} {H : Finset Nat} {α : Type} {Q : α → KState → Prop}
      {f : Nat → K α}, PageInv u [] H → ¬ C → wp (takePage >>= f) Q (Short C) u := by
    intro u H α Q f hu hnC
    unfold takePage
    rw [wp_bind, wp_bind, wp_ok (pageAlloc_nil hu false)]
    simpa using hnC
  obtain ⟨L, hL, hroom⟩ := h.page
  rcases L with _ | ⟨p0, _ | ⟨p1, _ | ⟨p2, L⟩⟩⟩
  · exact short hL fun hc => by have := hroom hc; have := hC hc; simp at *; omega
  · rw [wp_bind, wp_ok (takePage_cons hL)]
    exact short hL.pop fun hc => by have := hroom hc; have := hC hc; simp at *; omega
  · rw [wp_bind, wp_ok (takePage_cons hL), wp_bind, wp_ok (takePage_cons hL.pop)]
    exact short hL.pop.pop fun hc => by have := hroom hc; have := hC hc; simp at *; omega
  · have hnd := hL.counted.nodup
    simp only [List.nodup_cons, List.mem_cons, not_or] at hnd
    rw [wp_bind, wp_ok (takePage_cons hL), wp_bind, wp_ok (takePage_cons hL.pop), wp_bind,
      wp_ok (takePage_cons hL.pop.pop)]
    refine hx p0 p1 p2 _ (((PmOnly.pop _ _).trans (.pop _ _)).trans (.pop _ _)) rfl
      ⟨L, hL.pop.pop.pop, fun hc => ?_⟩ (fun e => hnd.1.1 e.symm) (fun e => hnd.1.2.1 e.symm)
      fun e => hnd.2.1.1 e.symm
    have := hroom hc
    simp only [List.length_cons] at this
    omega

/-- Giving back three pages in hand. -/
theorem freeThree_run {a b c : Nat} (h : PageInv s L {a, b, c}) (hab : b ≠ a) (hac : c ≠ a)
    (hbc : c ≠ b) : pageFree a s = .ok () (s.push a) ∧
      pageFree b (s.push a) = .ok () ((s.push a).push b) ∧
      pageFree c ((s.push a).push b) = .ok () (((s.push a).push b).push c) ∧
      PageInv (((s.push a).push b).push c) (c :: b :: a :: L) ∅ := by
  have h1 : ({a, b, c} : Finset Nat).erase a = {b, c} := by
    ext x; simp only [Finset.mem_erase, Finset.mem_insert, Finset.mem_singleton]
    constructor
    · tauto
    · rintro (rfl | rfl)
      · exact ⟨hab, by tauto⟩
      · exact ⟨hac, by tauto⟩
  have h2 : ({b, c} : Finset Nat).erase b = {c} := by
    ext x; simp only [Finset.mem_erase, Finset.mem_insert, Finset.mem_singleton]
    constructor
    · tauto
    · rintro rfl
      exact ⟨hbc, by tauto⟩
  have ha := h.push (f := a) (by simp)
  rw [h1] at ha
  have hb := ha.push (f := b) (by simp)
  rw [h2] at hb
  have hc := hb.push (f := c) (by simp)
  rw [Finset.erase_singleton] at hc
  exact ⟨pageFree_held h (by simp), pageFree_held ha (by simp), pageFree_held hb (by simp), hc⟩

theorem checkPageInstalledPgdir_wp (h : Booting C k s) (hC : C → 3 ≤ k) :
    wp checkPageInstalledPgdir (fun _ t => Booting C k t ∧ BootStep (fun _ => False) s t)
      (Short C) s := by
  unfold checkPageInstalledPgdir
  refine takeThree_wp h hC fun p0 p1 p2 t ho hm hp h10 h20 h21 => ?_
  obtain ⟨L, hL, hroom⟩ := hp
  rw [Finset.insert_comm] at hL
  obtain ⟨r1, r2, r3, hinv⟩ := freeThree_run hL h21 (Ne.symm h10) (Ne.symm h20)
  rw [wp_bind, wp_ok r1, wp_bind, wp_ok r2, wp_ok r3]
  have ho' : PmOnly t (((t.push p1).push p2).push p0) :=
    ((PmOnly.push t p1).trans (.push _ p2)).trans (.push _ p0)
  refine h.of_mem (ho.trans ho') (by rw [push_mem, push_mem, push_mem, hm])
    ⟨_, hinv, fun hc => ?_⟩
  have := hroom hc
  simp only [List.length_cons]
  omega

/-- Page numbers in the window for devices. -/
def MmioPages (v : Nat) : Prop := pgnum mmiobase ≤ v ∧ v < pgnum mmiolim

theorem checkPage_wp (h : Booting C k s) (hC : C → 3 ≤ k) (hb : s.mmioBase = mmiobase) :
    wp checkPage (fun _ t => Booting C k t ∧ BootStep MmioPages s t) (Short C) s := by
  unfold checkPage
  refine takeThree_wp h hC fun p0 p1 p2 t ho hm hp h10 h20 h21 => ?_
  obtain ⟨L, hL, hroom⟩ := hp
  have hH : ({p2, p1, p0} : Finset Nat) = {p0, p1, p2} := by
    rw [Finset.insert_comm, Finset.pair_comm, Finset.insert_comm, Finset.pair_comm p1 p2,
      Finset.pair_comm p2 p1]
  rw [hH] at hL
  obtain ⟨r1, r2, r3, hinv⟩ := freeThree_run hL h10 h20 h21
  rw [wp_bind, wp_ok r1, wp_bind, wp_ok r2, wp_bind, wp_ok r3]
  set u := ((t.push p0).push p1).push p2 with hu
  have hou : PmOnly t u := ((PmOnly.push t p0).trans (.push _ p1)).trans (.push _ p2)
  obtain ⟨h1, s1⟩ := h.of_mem (ho.trans hou) (by rw [hu, push_mem, push_mem, push_mem, hm])
    ⟨_, hinv, fun hc => by
      have := hroom hc
      simp only [List.length_cons]
      omega⟩
  have hub : u.mmioBase = mmiobase := by rw [(ho.trans hou).mmioBase, hb]
  have e1 : (roundup (0 + 4097) - rounddown 0 : Word).toNat = 8192 := by decide
  have e2 : (roundup (0 + 4096) - rounddown 0 : Word).toNat = 4096 := by decide
  have hbase : mmiobase.toNat = 0xEF800000 := by decide
  have hlim : mmiolim.toNat = 0xEFC00000 := by decide
  have hne : pdx mmiobase ≠ uvptPdx := by decide
  have hpb : pgnum mmiobase = 0xEF800 := by decide
  have hpl : pgnum mmiolim = 0xEFC00 := by decide
  rw [wp_bind]
  refine (mmioMapRegion_wp 0 4097 h1 (Or.inr e1) fun _ => by
    rw [hub]; omega).mono (fun mm1 v hv => ?_) fun _ _ hR => hR
  obtain ⟨rfl, h2, s2, hb2, hp2⟩ := hv
  rw [wp_bind]
  refine (mmioMapRegion_wp 0 4096 h2 (Or.inl e2) fun _ => by
    rw [hb2, hub, e1]; omega).mono (fun mm2 w hw => ?_) fun _ _ hR => hR
  obtain ⟨rfl, h3, s3, hb3, hp3⟩ := hw
  -- the three pages lie in the first table of the window
  have hin : ∀ a : Word, mmiobase.toNat ≤ a.toNat → a.toNat < mmiolim.toNat →
      pdx a = pdx mmiobase ∧ MmioPages (pgnum a) := by
    intro a ha hb
    have hpa : pgnum a = a.toNat / 4096 := rfl
    refine ⟨Fin.ext ?_, ?_, ?_⟩
    · rw [pdx_val, pdx_val]; omega
    · omega
    · omega
  have clear : ∀ {a : Word} {v : KState}, Booting C k v → mmiobase.toNat ≤ a.toNat →
      a.toNat < mmiolim.toNat → v.mem v.kernPgdir (pdx mmiobase) ≠ 0 →
      wp (clearKernPte a) (fun _ t => Booting C k t ∧ BootStep MmioPages v t ∧
        t.mem t.kernPgdir (pdx mmiobase) ≠ 0) (Short C) v := by
    intro a v hv ha hb' hp
    obtain ⟨hpd, hmm⟩ := hin a ha hb'
    refine (clearKernPte_wp hv (by rw [hpd]; exact hne) fun _ => by rw [hpd]; exact hp).mono
      (fun _ t ht => ⟨ht.1, ht.2.2.mono fun x hx => hx ▸ hmm, ?_⟩) fun _ _ hR => hR
    rw [ht.2.1.kernPgdir, ht.2.2.pde _ hp]
    exact hp
  have hb2' : v.mmioBase.toNat = mmiobase.toNat + 8192 := by rw [hb2, hub, e1]
  have hnext : (u.mmioBase + BitVec.ofNat 32 pgsize).toNat = mmiobase.toNat + 4096 := by
    rw [hub]; decide
  rw [wp_bind]
  refine (clear h3 (by rw [hub]) (by rw [hub]; omega) hp3).mono (fun _ x hx => ?_) fun _ _ hR => hR
  rw [wp_bind]
  refine (clear (a := u.mmioBase + BitVec.ofNat 32 pgsize) hx.1 (by omega) (by omega)
    hx.2.2).mono (fun _ y hy => ?_) fun _ _ hR => hR
  refine (clear (a := v.mmioBase) hy.1 (by omega) (by omega) hy.2.2).mono
    (fun _ z hz => ⟨hz.1, ?_⟩) fun _ _ hR => hR
  have s0 : BootStep MmioPages s u := s1.mono fun _ hx => hx.elim
  exact ((((s0.trans s2).trans s3).trans hx.2.1).trans hy.2.1).trans hz.2.1

/-! ### The kernel's mappings -/

theorem aligned_sub {a : Word} (h : a.toNat % 4096 = 0) : (a - kernbase).toNat % 4096 = 0 := by
  have hk : kernbase.toNat = 0xF0000000 := by decide
  have := a.isLt
  rw [BitVec.toNat_sub, hk]
  omega

/-- The flags of a directory entry let user code read through it. -/
theorem pde_userRead (T : Nat) :
    (page2pa T ||| pteP ||| pteW ||| pteU) &&& userRead = userRead := by
  have : (page2pa T ||| pteP ||| pteW ||| pteU) &&& userRead
      = (page2pa T &&& userRead) ||| ((pteP ||| pteW ||| pteU) &&& userRead) := by
    ext x
    simp only [BitVec.getElem_or, BitVec.getElem_and]
    cases (page2pa T)[x] <;> cases pteP[x] <;> cases pteW[x] <;> cases pteU[x] <;>
      cases userRead[x] <;> rfl
  have h0 : page2pa T &&& userRead = 0 := by
    have hm : userRead = 0xFFF &&& userRead := by decide
    rw [hm, ← BitVec.and_assoc, page2pa_flags]
    exact BitVec.zero_and
  rw [this, h0]
  decide

/-- Page numbers of the user's view of `pages`. -/
def PagesWindow (v : Nat) : Prop := pgnum upages ≤ v ∧ v < pgnum upages + 1024

theorem Booting.pagesMap (h : Booting C k s) (hm : MapsRegion upages (page2pa 0) pteU 1024 s)
    (ha : 256 ≤ paddrFrame s.pagesAt ∧ 256 ≤ paddrFrame s.envsAt) : PagesMap s := by
  have hne : pdx upages ≠ uvptPdx := by decide
  have hpg : pgnum upages = (pdx upages).val * 1024 := by decide
  refine ⟨ha, ?_, fun j => ?_⟩
  · obtain ⟨T, hT⟩ := (h.pdes _ hne).resolve_left (hm.pde_ne (by omega))
    rw [hT, pde_userRead]
  · have := j.isLt
    rw [hm (pdx upages) j (by omega) (by omega), regionEntry,
      show (pdx upages).val * 1024 + j.val - pgnum upages = j.val by omega]
    show page2pa 0 + page2pa j.val ||| pteU ||| pteP = _
    have : page2pa 0 = 0 := by decide
    rw [this]
    simp

theorem PagesMap.step {D : Nat → Prop} (h : PagesMap s) (hs : BootStep D s t)
    (hD : ∀ v, D v → ¬ PagesWindow v) : PagesMap t := by
  have hpg : pgnum upages = (pdx upages).val * 1024 := by decide
  have hk := hs.frame.limits.kernPgdir
  refine ⟨by rw [hs.frame.limits.pagesAt, hs.frame.limits.envsAt]; exact h.above, ?_,
    fun j => ?_⟩
  · rw [hk, hs.pde _ fun h0 => ?_]
    · exact h.pde
    · have := h.pde
      rw [h0] at this
      exact absurd this (by decide)
  · rw [hs.pte _ _ fun hx => hD _ hx ?_]
    · exact h.pte j
    · have := j.isLt
      exact ⟨by omega, by omega⟩

/-- Page numbers of the kernel's own mappings. -/
def KernPages (v : Nat) : Prop := pgnum mmiolim ≤ v

theorem KernPages.not_window {v : Nat} (h : KernPages v) : ¬ PagesWindow v := by
  have h1 : pgnum mmiolim = 0xEFC00 := by decide
  have h2 : pgnum upages = 0xEF000 := by decide
  unfold KernPages at h
  unfold PagesWindow
  omega

theorem memInitMp_wp (p : BootParams) (h : Booting C k s) :
    wp (memInitMp p) (fun _ t => Booting C k t ∧ BootStep KernPages s t) (Short C) s := by
  have hva : ∀ i : CpuIdx, (kstacktop - BitVec.ofNat 32 ((kstksize + kstkgap) * i.val)
      - BitVec.ofNat 32 kstksize).toNat = 0xF0000000 - 65536 * i.val - 32768 := by decide
  have hn : ((BitVec.ofNat 32 kstksize).toNat + (pgsize - 1)) / pgsize = 8 := by decide
  have hl : pgnum mmiolim = 0xEFC00 := by decide
  have huv : uvptPdx.val = 957 := by decide
  unfold memInitMp
  refine wp.forM (I := fun _ t => Booting C k t ∧ BootStep KernPages s t) (fun i l u hu => ?_)
    ⟨h, .refl _ s⟩
  simp only [wp_bind, wp_get]
  set va := kstacktop - BitVec.ofNat 32 ((kstksize + kstkgap) * i.val) - BitVec.ofNat 32 kstksize
    with hvadef
  have hv := hva i
  rw [← hvadef] at hv
  have hi := i.isLt
  have hpg : pgnum va = va.toNat / 4096 := rfl
  refine (bootMapRegion_wp 8 hu.1 hn (by decide) (by omega) (by omega) (fun m hm => by omega)
    (aligned_sub (p.aligned.2 i))).mono (fun _ t ht => ?_) fun _ _ hR => hR
  refine ⟨ht.1, hu.2.trans (ht.2.2.1.mono fun v hx => ?_)⟩
  unfold KernPages
  omega

theorem memInitMaps_wp (p : BootParams) (h : Booting C k s) (he : s.envsAt.toNat % 4096 = 0)
    (ha : 256 ≤ paddrFrame s.pagesAt ∧ 256 ≤ paddrFrame s.envsAt) :
    wp (memInitMaps p) (fun _ t => Booting C k t ∧ BootFrame s t ∧ PagesMap t) (Short C) s := by
  have huv : uvptPdx.val = 957 := by decide
  have hl : pgnum mmiolim = 0xEFC00 := by decide
  have hpw : pgnum upages = 0xEF000 := by decide
  have hne : pgnum uenvs = 0xEEC00 := by decide
  have hnk : pgnum (kstacktop - BitVec.ofNat 32 kstksize) = 0xEFFF8 := by decide
  have hnb : pgnum kernbase = 0xF0000 := by decide
  unfold memInitMaps
  simp only [wp_bind, wp_get]
  refine (bootMapRegion_wp 1024 h (by decide) (by decide) (by decide) (by decide)
    (fun m hm => by omega) (by decide)).mono (fun _ t1 ht1 => ?_) fun _ _ hR => hR
  obtain ⟨h1, o1, s1, m1⟩ := ht1
  have hP1 := h1.pagesMap m1 (by rw [o1.pagesAt, o1.envsAt]; exact ha)
  rw [← o1.kernPgdir]
  refine (bootMapRegion_wp 1024 h1 (by decide) (by decide) (by decide) (by decide)
    (fun m hm => by omega) (aligned_sub he)).mono (fun _ t2 ht2 => ?_) fun _ _ hR => hR
  obtain ⟨h2, o2, s2, -⟩ := ht2
  have hP2 := hP1.step s2 fun v hv => by unfold PagesWindow; omega
  rw [← o2.kernPgdir]
  refine (bootMapRegion_wp 8 h2 (by decide) (by decide) (by decide) (by decide)
    (fun m hm => by omega) (aligned_sub p.aligned.1)).mono (fun _ t3 ht3 => ?_) fun _ _ hR => hR
  obtain ⟨h3, o3, s3, -⟩ := ht3
  have hP3 := hP2.step s3 fun v hv => by unfold PagesWindow; omega
  rw [← o3.kernPgdir]
  refine (bootMapRegion_wp 65536 h3 (by decide) (by decide) (by decide) (by decide)
    (fun m hm => by omega) (by decide)).mono (fun _ t4 ht4 => ?_) fun _ _ hR => hR
  obtain ⟨h4, o4, s4, -⟩ := ht4
  have hP4 := hP3.step s4 fun v hv => by unfold PagesWindow; omega
  refine (memInitMp_wp p h4).mono (fun _ t5 ht5 => ⟨ht5.1, ?_, ?_⟩) fun _ _ hR => hR
  · exact (BootFrame.of_pmOnly (((o1.trans o2).trans o3).trans o4)).trans ht5.2.frame
  · exact hP4.step ht5.2 fun v hv => hv.not_window

/-! ### The kernel's arrays and the free list -/

theorem detectMemory_le (p : BootParams) : detectMemory p ≤ 1052656 := by
  have h1 := p.ext16mem.isLt
  have h2 := p.extmem.isLt
  have h3 := p.basemem.isLt
  have hd : pgsize / 1024 = 4 := by decide
  unfold detectMemory
  rw [hd]
  simp only
  split
  · omega
  · split <;> omega

/-- What `boot_alloc` has provided, and the state of the page array before `page_init`. -/
structure Arrays (p : BootParams) (s : KState) : Prop where
  npages : s.npages = detectMemory p
  nextfree : s.nextfree.toNat % 4096 = 0 ∧ s.nextfree.toNat ≤ 0xF0D00000
  kern : 256 ≤ s.kernPgdir ∧ kernbase.toNat + (s.kernPgdir + 1) * 4096 ≤ s.nextfree.toNat
  envsAt : s.envsAt.toNat % 4096 = 0
  above : 256 ≤ paddrFrame s.pagesAt ∧ 256 ≤ paddrFrame s.envsAt
  pages : s.pages = fun _ => ⟨none, 0⟩
  freeList : s.pageFreeList = none
  envs : s.envs = emptyEnv
  cpus : s.cpus = fun _ => ⟨.unused, none, .absent⟩
  mmio : s.mmioBase = mmiobase
  dir : ∀ i, i ≠ uvptPdx → s.mem s.kernPgdir i = 0

/-- `boot_alloc` hands out a rounded piece and panics beyond the end of memory. -/
theorem bootAlloc_wp {p : BootParams} {n r q : Word} {N : Nat} {Q : Word → KState → Prop}
    (hr : (if s.nextfree = 0 then roundup p.kernEnd else s.nextfree) = r)
    (hq : roundup (r + n) = q) (hN : s.npages = N)
    (hC : C → (q - kernbase).toNat ≤ (BitVec.ofNat 32 (N * pgsize)).toNat)
    (hQ : Q r { s with nextfree := q }) : wp (bootAlloc p n) Q (Short C) s := by
  unfold bootAlloc
  simp only [wp_bind, wp_get, wp_set, wp_ite, wp_throw, wp_pure, short_panic, hr, hq, hN]
  refine ⟨fun hlt hc => ?_, fun _ => hN ▸ hQ⟩
  have := hC hc
  rw [BitVec.lt_def] at hlt
  omega

theorem memInitArrays_wp (p : BootParams)
    (hC : C → 8192 ≤ detectMemory p ∧ detectMemory p ≤ 65536) :
    wp (memInitArrays p) (fun _ t => Arrays p t) (Short C) (startState p) := by
  obtain ⟨hlo, hhi⟩ := p.linked
  rw [BitVec.le_def] at hlo hhi
  have hlo' : (0xF0100000 : Word).toNat = 0xF0100000 := by decide
  have hhi' : (0xF0400000 : Word).toNat = 0xF0400000 := by decide
  have hkb : kernbase.toNat = 0xF0000000 := by decide
  have hnp := detectMemory_le p
  -- under `C` all of it fits
  have fits : ∀ {a : Word}, kernbase.toNat ≤ a.toNat → a.toNat ≤ 0xF0D00000 → C →
      (a - kernbase).toNat ≤ (BitVec.ofNat 32 (detectMemory p * pgsize)).toNat := by
    intro a h1 h2 hc
    obtain ⟨h3, h4⟩ := hC hc
    have hm : (a - kernbase).toNat = a.toNat - kernbase.toNat := by
      have := a.isLt
      rw [BitVec.toNat_sub]
      omega
    rw [hm, BitVec.toNat_ofNat]
    have hp : pgsize = 4096 := rfl
    rw [hp]
    rcases Nat.lt_or_ge (detectMemory p) (2 ^ 20) with h5 | h5
    · rw [Nat.mod_eq_of_lt (by omega)]; omega
    · omega
  have add : ∀ {a b : Word}, a.toNat + b.toNat < 2 ^ 32 → (a + b).toNat = a.toNat + b.toNat := by
    intro a b hab
    rw [BitVec.toNat_add, Nat.mod_eq_of_lt hab]
  set r0 := roundup p.kernEnd with hr0
  have v0 : r0.toNat = (p.kernEnd.toNat + 4095) / 4096 * 4096 := roundup_toNat (by omega)
  have p1 : (BitVec.ofNat 32 pgsize).toNat = 4096 := by decide
  set r1 := roundup (r0 + BitVec.ofNat 32 pgsize) with hr1
  have a1 : (r0 + BitVec.ofNat 32 pgsize).toNat = r0.toNat + 4096 := by rw [add (by omega), p1]
  have v1 : r1.toNat = r0.toNat + 4096 := by rw [hr1, roundup_toNat (by omega), a1]; omega
  have p2 : (BitVec.ofNat 32 (detectMemory p * sizeofPageInfo)).toNat = detectMemory p * 8 := by
    rw [BitVec.toNat_ofNat]
    have : sizeofPageInfo = 8 := rfl
    rw [this]
    omega
  set r2 := roundup (r1 + BitVec.ofNat 32 (detectMemory p * sizeofPageInfo)) with hr2
  have a2 : (r1 + BitVec.ofNat 32 (detectMemory p * sizeofPageInfo)).toNat
      = r1.toNat + detectMemory p * 8 := by rw [add (by omega), p2]
  have v2 : r2.toNat = (r1.toNat + detectMemory p * 8 + 4095) / 4096 * 4096 := by
    rw [hr2, roundup_toNat (by omega), a2]
  have p3 : (BitVec.ofNat 32 (nenv * sizeofEnv)).toNat = 126976 := by decide
  set r3 := roundup (r2 + BitVec.ofNat 32 (nenv * sizeofEnv)) with hr3
  have a3 : (r2 + BitVec.ofNat 32 (nenv * sizeofEnv)).toNat = r2.toNat + 126976 := by
    rw [add (by omega), p3]
  have v3 : r3.toNat = r2.toNat + 126976 := by rw [hr3, roundup_toNat (by omega), a3]; omega
  have ne : ∀ {a : Word}, 0 < a.toNat → a ≠ 0 := by
    rintro a ha rfl
    exact absurd ha (by decide)
  unfold memInitArrays
  rw [wp_bind, wp_modify, wp_bind]
  refine bootAlloc_wp (r := r0) (q := r1) (if_pos rfl) rfl rfl (fits (by omega) (by omega)) ?_
  rw [wp_bind, wp_modify, wp_bind, wp_modify, wp_bind, wp_modify, wp_bind, wp_get, wp_bind]
  refine bootAlloc_wp (r := r1) (q := r2) (if_neg (ne (a := r1) (by omega))) rfl rfl
    (fits (by omega) (by omega)) ?_
  rw [wp_bind, wp_modify, wp_bind]
  refine bootAlloc_wp (r := r2) (q := r3) (if_neg (ne (a := r2) (by omega))) rfl rfl
    (fits (by omega) (by omega)) ?_
  rw [wp_modify]
  have hframe : ∀ {a : Word}, kernbase.toNat ≤ a.toNat →
      paddrFrame a = (a.toNat - 0xF0000000) / 4096 := by
    intro a ha
    have := a.isLt
    rw [paddrFrame, pgnum, BitVec.toNat_sub, hkb]
    omega
  have hkd := hframe (a := r0) (by omega)
  have hf1 := hframe (a := r1) (by omega)
  have hf2 := hframe (a := r2) (by omega)
  refine ⟨rfl, ⟨?_, ?_⟩, ⟨?_, ?_⟩, ?_, ⟨?_, ?_⟩, rfl, rfl, rfl, rfl, rfl, fun i hi => ?_⟩
  · show r3.toNat % 4096 = 0
    omega
  · show r3.toNat ≤ _
    omega
  · show 256 ≤ paddrFrame r0
    omega
  · show kernbase.toNat + (paddrFrame r0 + 1) * 4096 ≤ r3.toNat
    omega
  · show r2.toNat % 4096 = 0
    omega
  · show 256 ≤ paddrFrame r1
    omega
  · show 256 ≤ paddrFrame r2
    omega
  · refine (KState.poke_mem_self _ (paddrFrame r0) uvptPdx _ i).trans ?_
    rw [if_neg hi, KState.setFrame_mem, Function.update_self]

/-- The reserved pages end where the kernel's arrays do, so at least the pages above are free. -/
theorem initFree_length {k n : Nat} (h : 160 ≤ k) : n - k ≤ (initFree k n).length := by
  have hsub : List.range' k (n - k) ⊆ initFree k n := by
    intro f hf
    rw [List.mem_range'_1] at hf
    rw [mem_initFree]
    refine ⟨by omega, ?_⟩
    simp only [pageReserved, Bool.or_eq_false_iff, Bool.and_eq_false_iff, decide_eq_false_iff_not]
    exact ⟨⟨by omega, Or.inr (by omega)⟩, by omega⟩
  have hnd : (List.range' k (n - k)).Nodup := List.nodup_range'
  simpa using (hnd.subperm hsub).length_le

theorem roundup_aligned {a : Word} (h : a.toNat % 4096 = 0) (hl : a.toNat + 4095 < 2 ^ 32) :
    roundup (a + 0) = a := by
  have h0 : a + 0 = a := by simp
  apply BitVec.eq_of_toNat_eq
  rw [h0, roundup_toNat hl]
  omega

/-- `page_init` keeps what `boot_alloc` has provided. -/
structure Lists (p : BootParams) (ke : Nat) (s t : KState) : Prop where
  loop : InitLoop ke s.npages s t
  bound : ke = paddrFrame s.nextfree
  high : s.kernPgdir < ke ∧ ke ≤ 0xD00

theorem pageInit_wp {p : BootParams} (h : Arrays p s)
    (hC : C → 8192 ≤ detectMemory p ∧ detectMemory p ≤ 65536) :
    wp (pageInit p) (fun _ t => Lists p (paddrFrame s.nextfree) s t) (Short C) s := by
  have hkb : kernbase.toNat = 0xF0000000 := by decide
  obtain ⟨h1, h2⟩ := h.nextfree
  obtain ⟨h3, h4⟩ := h.kern
  have hn0 : s.nextfree ≠ 0 := by
    intro h0
    rw [h0] at h4
    have : (0 : Word).toNat = 0 := rfl
    omega
  have hke : paddrFrame s.nextfree = (s.nextfree.toNat - 0xF0000000) / 4096 := by
    have := s.nextfree.isLt
    rw [paddrFrame, pgnum, BitVec.toNat_sub, hkb]
    omega
  unfold pageInit
  rw [wp_bind]
  refine bootAlloc_wp (r := s.nextfree) (q := s.nextfree) (N := s.npages) (if_neg hn0)
    (roundup_aligned h1 (by omega)) rfl (fun hc => ?_) ?_
  · obtain ⟨h5, h6⟩ := hC hc
    have hm : (s.nextfree - kernbase).toNat = s.nextfree.toNat - 0xF0000000 := by
      have := s.nextfree.isLt
      rw [BitVec.toNat_sub, hkb]
      omega
    have hp : pgsize = 4096 := rfl
    rw [hm, BitVec.toNat_ofNat, hp, h.npages, Nat.mod_eq_of_lt (by omega)]
    omega
  · rw [wp_modify]
    exact ⟨pageInit_loop _ h.pages h.freeList _, rfl, by omega, by omega⟩

/-- The free list that `page_init` builds is consistent. -/
theorem Lists.pageInv {p : BootParams} {ke : Nat} (h : Arrays p s) (hl : Lists p ke s t)
    (hw : s.npages ≤ 65536) : PageInv t (initFree ke s.npages) ∅ := by
  have ho := hl.loop.only
  have hM : ∀ f, Managed t f ↔ f ∈ initFree ke s.npages := by
    intro f
    rw [mem_initFree, Managed, ho.npages, ho.nextfree, ← hl.bound]
  -- nothing refers to any page yet
  have hdir : ∀ e, (t.envs e).envPgdir = none := by
    intro e; rw [ho.envs, h.envs]; rfl
  have htab : ∀ o i, tabFrame t o i = none := by
    intro o i
    unfold tabFrame pdeAt
    split
    · rename_i hown
      cases o with
      | none =>
        have := h.dir i hown
        simp [dirFrame, ho.kernPgdir, hl.loop.mem, this]
      | some e => simp [dirFrame, hdir]
    · rfl
  have htgt : ∀ r, target t r = none := by
    intro r
    cases r with
    | dir e => exact hdir e
    | tab o i => exact htab o i
    | pte e i j => simp only [target, pteAt_of_no_tab (htab _ _), entryFrame_zero]
  have hrefs : ∀ f, refs (target t) f = 0 := fun f =>
    refs_eq_zero.mpr fun r => by rw [htgt]; simp
  refine ⟨hl.loop.chain, fun f hf hn => absurd ((hM f).mp hf) hn, ⟨nodup_initFree _ _,
    fun f hf => (hM f).mpr hf, fun r f hr => (by rw [htgt] at hr; cases hr),
    fun f hf => absurd hf (Finset.notMem_empty f), fun f hf => ?_, fun f hf => ?_⟩,
    fun r f _ hr => (by rw [htgt] at hr; cases hr), fun hk => ?_, ?_⟩
  · have hf' := mem_initFree.mp ((hM f).mp hf)
    rw [hrefs, hl.loop.pages, if_neg (by simp [hf'.2])]
    rfl
  · rw [hrefs]
    simp [(hM f).mp hf]
  · obtain ⟨h1, -⟩ := h.kern
    obtain ⟨h2, -⟩ := hl.high
    rw [hM, mem_initFree, ho.kernPgdir] at hk
    have : pageReserved ke s.kernPgdir = true := by
      simp only [pageReserved, Bool.or_eq_true, Bool.and_eq_true, decide_eq_true_eq]
      exact Or.inl (Or.inr ⟨by omega, h2⟩)
    rw [this] at hk
    exact absurd hk.2 (by simp)
  · rw [ho.npages]; exact hw

theorem missing_le (s : KState) : missing s ≤ 1024 := by
  unfold missing
  exact (Finset.card_le_univ _).trans (by simp)

theorem Lists.booting {p : BootParams} {ke : Nat} (h : Arrays p s) (hl : Lists p ke s t)
    (hw : s.npages ≤ 65536) (hC : C → 8192 ≤ detectMemory p) (hk : k ≤ 1024) :
    Booting C k t := by
  have ho := hl.loop.only
  have hinv := hl.pageInv h hw
  have htab : ∀ i, tabFrame t none i = none := by
    intro i
    unfold tabFrame pdeAt
    split
    · rename_i hown
      have := h.dir i hown
      simp [dirFrame, ho.kernPgdir, hl.loop.mem, this]
    · rfl
  refine ⟨⟨_, hinv, fun hc => ?_⟩, by rw [ho.envs]; exact h.envs, fun k => ?_, fun i j => ?_,
    fun i hi => Or.inl ?_, ?_⟩
  · obtain ⟨h1, -⟩ := h.kern
    obtain ⟨h2, h3⟩ := hl.high
    have h4 := initFree_length (k := ke) (n := s.npages) (by omega)
    have h5 := missing_le t
    have h6 := hC hc
    rw [h.npages] at h4 ⊢
    omega
  · rw [ho.cpus, h.cpus]
    exact ⟨by simp, rfl⟩
  · rw [pteAt_of_no_tab (htab i)]; decide
  · rw [ho.kernPgdir, hl.loop.mem]; exact h.dir i hi
  · rw [ho.mmioBase, h.mmio]; decide

theorem Booting.lcr3 (h : Booting C k s) (c : CpuIdx) (d : Nat) : Booting C k (s.lcr3 c d) := by
  obtain ⟨htgt, htab, hpte, -⟩ := lcr3_spec (s := s) c d
  obtain ⟨L, hL, hroom⟩ := h.page
  have hmiss : missing (s.lcr3 c d) = missing s := by unfold missing; rw [htab]
  exact ⟨⟨L, hL.congr htgt rfl rfl rfl rfl rfl, by rw [hmiss]; exact hroom⟩, h.envs, h.cpus,
    fun i j => by rw [hpte]; exact h.flags i j, h.pdes, h.mmio⟩

/-- What `mem_init` achieves on a machine whose memory the kernel's window covers. -/
structure MemReady (C : Prop) (k : ℕ) (s : KState) : Prop where
  boot : Booting C k s
  pages : PagesMap s

theorem memInit_wp {p : BootParams} (hw : detectMemory p ≤ 65536)
    (hC : C → 8192 ≤ detectMemory p) (hk : k ≤ 1024) (hk3 : 3 ≤ k) :
    wp (memInit p) (fun _ t => MemReady C k t) (Short C) (startState p) := by
  unfold memInit
  rw [wp_bind]
  refine (memInitArrays_wp p fun hc => ⟨hC hc, hw⟩).mono (fun _ s1 h1 => ?_) fun _ _ hR => hR
  rw [wp_bind]
  refine (pageInit_wp h1 fun hc => ⟨hC hc, hw⟩).mono (fun _ s2 h2 => ?_) fun _ _ hR => hR
  have hb := h2.booting (C := C) (k := k) h1 (by rw [h1.npages]; exact hw) hC hk
  have ho := h2.loop.only
  rw [wp_bind]
  refine (checkPageFreeList_wp hb true).mono (fun _ s3 h3 => ?_) fun _ _ hR => hR
  have hbase : s3.mmioBase = mmiobase := by rw [h3.2.1.mmioBase, ho.mmioBase, h1.mmio]
  rw [wp_bind]
  refine (checkPage_wp h3.1 (fun _ => hk3) hbase).mono (fun _ s4 h4 => ?_) fun _ _ hR => hR
  have hlim : SameLimits s1 s4 := (ho.limits.trans h3.2.1.limits).trans h4.2.frame.limits
  rw [wp_bind]
  refine (memInitMaps_wp p h4.1 (by rw [hlim.envsAt]; exact h1.envsAt)
    (by rw [hlim.pagesAt, hlim.envsAt]; exact h1.above)).mono (fun _ s5 h5 => ?_) fun _ _ hR => hR
  -- the kernel's directory is loaded
  rw [wp_bind, wp_modify]
  have h6 : Booting C k (s5.lcr3 p.bsp s5.kernPgdir) ∧ PagesMap (s5.lcr3 p.bsp s5.kernPgdir) :=
    ⟨h5.1.lcr3 _ _, h5.2.2.congr ⟨rfl, rfl, rfl, rfl, rfl⟩ rfl fun _ _ => rfl⟩
  rw [wp_bind]
  refine (checkPageFreeList_wp h6.1 false).mono (fun _ s7 h7 => ?_) fun _ _ hR => hR
  refine (checkPageInstalledPgdir_wp h7.1 fun _ => hk3).mono (fun _ s8 h8 => ?_) fun _ _ hR => hR
  exact ⟨h8.1, (h6.2.step h7.2.2 fun _ hx => hx.elim).step h8.2 fun _ hx => hx.elim⟩

end

end Jos
