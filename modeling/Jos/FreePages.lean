import Jos.BootMem

/-!
  Which pages are free after boot (`page_init`, and the reordering in `check_page_free_list(1)`).

  `page_init` takes the base memory to reach up to the IO hole, whatever size was detected, and its
  pages may lie beyond what the kernel maps above `KERNBASE`. -/

namespace Jos

open Lib

/-! ### Moving the low pages first -/

/-- The variables of the loop in `check_page_free_list`: `pp1` and `pp2`, and `tp`, which holds
    for each of the two lists the address of the pointer at its end. -/
structure Cut where
  s : KState
  pp : Bool → Option Nat
  tp : Bool → Place Bool Nat

namespace Cut

/-- The pointers that the loop works on. -/
def ptr (k : Cut) : Place Bool Nat → Option Nat
  | .root b => k.pp b
  | .link f => (k.s.pages f).ppLink

/-- `*l = v`. -/
def store (k : Cut) (l : Place Bool Nat) (v : Option Nat) : Cut :=
  match l with
  | .root b => { k with pp := Function.update k.pp b v }
  | .link f => { k with s := k.s.setPage f { k.s.pages f with ppLink := v } }

/-- `*tp[b] = v`. -/
def storeTp (k : Cut) (b : Bool) (v : Option Nat) : Cut := k.store (k.tp b) v

/-- The body of the loop for page `f`. -/
def body (k : Cut) (f : Nat) : Cut :=
  let pagetype := !lowPage f
  let k := k.storeTp pagetype (some f)
  { k with tp := Function.update k.tp pagetype (.link f) }

/-- The loop from page `h` on. -/
def loop : Nat → Option Nat → Cut → Cut
  | 0, _, k => k
  | _, none, k => k
  | fuel + 1, some f, k =>
    let k := k.body f
    loop fuel (k.s.pages f).ppLink k

end Cut

/-- The reordering in `check_page_free_list(1)`; `junk` is what the variables `pp1` and `pp2` hold
    at first. -/
def lowFirst (junk : Bool → Option Nat) (s : KState) : KState :=
  let k := Cut.loop s.npages s.pageFreeList ⟨s, junk, .root⟩
  let k := k.storeTp true none
  let k := k.storeTp false (k.pp true)
  { k.s with pageFreeList := k.pp false }

section

variable {s t : KState} {k : Cut} {L A B : List Nat}

theorem Cut.store_ptr (k : Cut) (l : Place Bool Nat) (v : Option Nat) :
    (k.store l v).ptr = Function.update k.ptr l v := by
  funext x
  cases l with
  | root b =>
    cases x with
    | root c => simp [ptr, store, Function.update_apply]
    | link f => simp [ptr, store]
  | link f =>
    cases x with
    | root c => simp [ptr, store]
    | link g =>
      by_cases hgf : g = f
      · subst hgf; simp [ptr, store, KState.setPage]
      · simp [ptr, store, KState.setPage, hgf]

@[simp] theorem Cut.storeTp_tp (k : Cut) (b : Bool) (v : Option Nat) : (k.storeTp b v).tp = k.tp := by
  unfold storeTp store
  split <;> rfl

/-- The pages of list `b` among those of `L`. -/
def typed (b : Bool) (L : List Nat) : List Nat := L.filter fun f => (!lowPage f) == b

theorem mem_typed {b : Bool} {f : Nat} : f ∈ typed b L ↔ f ∈ L ∧ (!lowPage f) = b := by
  simp [typed]

theorem typed_concat (b : Bool) (A : List Nat) (f : Nat) :
    typed b (A ++ [f]) = if (!lowPage f) = b then typed b A ++ [f] else typed b A := by
  unfold typed
  rw [List.filter_append]
  by_cases h : (!lowPage f) = b <;> simp [h]

/-- The loop has dealt with the pages `A` and has `B` before it. -/
structure Cut.At (k : Cut) (s : KState) (A B : List Nat) : Prop where
  path : ∀ b, Path k.ptr (.root b) (typed b A) (k.tp b)
  chain : ∀ f ∈ B, (k.s.pages f).ppLink = (s.pages f).ppLink
  ref : ∀ f, (k.s.pages f).ppRef = (s.pages f).ppRef
  off : ∀ f, f ∉ A → k.s.pages f = s.pages f
  only : PmOnly s k.s
  mem : k.s.mem = s.mem
  tlb : k.s.tlb = s.tlb

/-- Writing through `tp[b]` touches no page outside the list. -/
theorem Cut.At.tp_mem (h : k.At s A B) (b : Bool) :
    k.tp b = .root b ∨ ∃ a ∈ typed b A, k.tp b = .link a := (h.path b).end_mem

theorem Cut.store_only (k : Cut) (l : Place Bool Nat) (v : Option Nat) :
    (PmOnly k.s (k.store l v).s ∧ (k.store l v).s.mem = k.s.mem ∧ (k.store l v).s.tlb = k.s.tlb) ∧
      ∀ f, ((k.store l v).s.pages f).ppRef = (k.s.pages f).ppRef := by
  cases l with
  | root b => exact ⟨⟨.refl _, rfl, rfl⟩, fun _ => rfl⟩
  | link g =>
    refine ⟨⟨rfl, rfl, rfl⟩, fun f => ?_⟩
    by_cases hfg : f = g
    · subst hfg; simp [store, KState.setPage]
    · simp [store, KState.setPage, hfg]

/-- Writing through `tp[b]` keeps both lists, and everything off them. -/
theorem Cut.At.store (h : k.At s A B) (hn : A.Nodup) (b : Bool) (v : Option Nat) :
    (∀ c, Path (k.storeTp b v).ptr (.root c) (typed c A) (k.tp c)) ∧
      (∀ f, f ∉ A → (k.storeTp b v).s.pages f = k.s.pages f) ∧
      (PmOnly s (k.storeTp b v).s ∧ (k.storeTp b v).s.mem = s.mem ∧
        (k.storeTp b v).s.tlb = s.tlb) ∧
      ∀ f, ((k.storeTp b v).s.pages f).ppRef = (s.pages f).ppRef := by
  obtain ⟨⟨honly, hmem, htlb⟩, href⟩ := k.store_only (k.tp b) v
  refine ⟨fun c => ?_, fun f hf => ?_, ⟨h.only.trans honly, hmem.trans h.mem, htlb.trans h.tlb⟩,
    fun f => (href f).trans (h.ref f)⟩
  · unfold storeTp
    rw [store_ptr]
    have hnc : (typed c A).Nodup := hn.filter _
    rcases eq_or_ne c b with rfl | hcb
    · exact (h.path c).write hnc v
    · refine (h.path c).congr (fun _ => Function.update_of_ne ?_ _ _)
        (fun a ha _ => Function.update_of_ne ?_ _ _) hnc
      · rcases h.tp_mem b with hb | ⟨a, -, hb⟩ <;> rw [hb] <;> simp [hcb]
      · rcases h.tp_mem b with hb | ⟨a', ha', hb⟩ <;> rw [hb]
        · simp
        · rintro heq
          cases heq
          exact hcb ((mem_typed.mp ha).2.symm.trans (mem_typed.mp ha').2)
  · unfold storeTp
    rcases h.tp_mem b with hb | ⟨a, ha, hb⟩
    · rw [hb]; rfl
    · have hfa : f ≠ a := fun e => hf (e ▸ (mem_typed.mp ha).1)
      rw [hb]
      simp [Cut.store, KState.setPage, hfa]

theorem Cut.At.body {f : Nat} (h : k.At s A (f :: B)) (hn : (A ++ f :: B).Nodup) :
    (k.body f).At s (A ++ [f]) B := by
  obtain ⟨hA, hfB, hd⟩ := List.nodup_append.mp hn
  have hfA : f ∉ A := fun hf => hd f hf f (List.mem_cons_self ..) rfl
  obtain ⟨hpath, hoff, ⟨honly, hmem, htlb⟩, href⟩ := h.store hA (!lowPage f) (some f)
  refine ⟨fun c => ?_, fun g hg => ?_, href, fun g hg => ?_, honly, hmem, htlb⟩
  · show Path (k.storeTp (!lowPage f) (some f)).ptr (.root c) (typed c (A ++ [f]))
      (Function.update (k.storeTp (!lowPage f) (some f)).tp (!lowPage f) (.link f) c)
    rw [typed_concat, storeTp_tp]
    by_cases hc : (!lowPage f) = c
    · subst hc
      rw [if_pos rfl, Function.update_self]
      refine (hpath _).snoc ?_
      rw [storeTp, store_ptr, Function.update_self]
    · rw [if_neg hc, Function.update_of_ne (Ne.symm hc)]
      exact hpath c
  · have hgA : g ∉ A := fun hgA => hd g hgA g (List.mem_cons_of_mem f hg) rfl
    show ((k.storeTp (!lowPage f) (some f)).s.pages g).ppLink = _
    rw [hoff g hgA]
    exact h.chain g (List.mem_cons_of_mem f hg)
  · rw [List.mem_append, not_or] at hg
    show (k.storeTp (!lowPage f) (some f)).s.pages g = _
    rw [hoff g hg.1]
    exact h.off g hg.1

/-- The loop splits the list in one pass. -/
theorem Cut.At.loop : ∀ {B A : List Nat} {h : Option Nat} {fuel : Nat} {k : Cut}, k.At s A B →
    Chain (fun f => (s.pages f).ppLink) h B → (A ++ B).Nodup → B.length ≤ fuel →
    (Cut.loop fuel h k).At s (A ++ B) []
  | [], A, h, fuel, k, hk, hc, _, _ => by
    rw [Chain] at hc
    subst hc
    rw [List.append_nil]
    cases fuel <;> exact hk
  | f :: B, A, h, fuel + 1, k, hk, ⟨hh, hc⟩, hn, hl => by
    subst hh
    rw [List.length_cons] at hl
    have hbody := hk.body hn
    have hnext : ((k.body f).s.pages f).ppLink = (s.pages f).ppLink := by
      obtain ⟨hA, hfB, hd⟩ := List.nodup_append.mp hn
      have hfA : f ∉ A := fun hf => hd f hf f (List.mem_cons_self ..) rfl
      show ((k.storeTp (!lowPage f) (some f)).s.pages f).ppLink = _
      rw [(hk.store hA (!lowPage f) (some f)).2.1 f hfA, hk.chain f (List.mem_cons_self ..)]
    show (Cut.loop fuel ((k.body f).s.pages f).ppLink (k.body f)).At s (A ++ f :: B) []
    rw [hnext]
    have hlen : B.length ≤ fuel := by omega
    have hrest := hbody.loop hc (by simpa using hn) hlen
    simpa using hrest

/-- The reordering puts the pages of the first 4MB first and changes nothing else. -/
theorem lowFirst_chain (junk : Bool → Option Nat) (h : FreeChain s L) (hl : L.length ≤ s.npages) :
    FreeChain (lowFirst junk s) (typed false L ++ typed true L) ∧
      (PmOnly s (lowFirst junk s) ∧ (lowFirst junk s).mem = s.mem ∧
        (lowFirst junk s).tlb = s.tlb) ∧
      (∀ f, ((lowFirst junk s).pages f).ppRef = (s.pages f).ppRef) ∧
      ∀ f, f ∉ L → (lowFirst junk s).pages f = s.pages f := by
  have hstart : (⟨s, junk, .root⟩ : Cut).At s [] L :=
    ⟨fun _ => rfl, fun _ _ => rfl, fun _ => rfl, fun _ _ => rfl, .refl s, rfl, rfl⟩
  have hend := hstart.loop h.1 h.2 hl
  rw [List.nil_append] at hend
  set k := Cut.loop s.npages s.pageFreeList ⟨s, junk, .root⟩ with hk
  -- the list of the other pages ends here
  obtain ⟨hpath1, hoff1, ⟨honly1, hmem1, htlb1⟩, href1⟩ := hend.store h.2 true none
  set k1 := k.storeTp true none with hk1
  have htp1 : k1.tp = k.tp := k.storeTp_tp true none
  rw [← htp1] at hpath1
  have hnull : k1.ptr (k1.tp true) = none := by
    rw [htp1, hk1, Cut.storeTp, Cut.store_ptr, Function.update_self]
  have hat1 : k1.At s L [] :=
    ⟨hpath1, fun f hf => (by cases hf), href1, fun f hf => (hoff1 f hf).trans (hend.off f hf), honly1,
      hmem1, htlb1⟩
  -- and the list of the low pages leads on to it
  obtain ⟨hpath2, hoff2, ⟨honly2, hmem2, htlb2⟩, href2⟩ := hat1.store h.2 false (k1.pp true)
  set k2 := k1.storeTp false (k1.pp true) with hk2
  have hjoin : k2.ptr (k1.tp false) = k1.pp true := by
    rw [hk2, Cut.storeTp, Cut.store_ptr, Function.update_self]
  have hne : k1.tp true ≠ k1.tp false := by
    rcases hat1.tp_mem true with h1 | ⟨a, ha, h1⟩ <;> rcases hat1.tp_mem false with h2 | ⟨b, hb, h2⟩
      <;> rw [h1, h2]
    · simp
    · simp
    · simp
    · rintro heq
      cases heq
      exact absurd ((mem_typed.mp ha).2.symm.trans (mem_typed.mp hb).2) (by simp)
  have hroot : k2.ptr (.root true) = k1.pp true := by
    rw [hk2, Cut.storeTp, Cut.store_ptr, Function.update_of_ne]
    · rfl
    · rcases hat1.tp_mem false with h2 | ⟨b, -, h2⟩ <;> rw [h2] <;> simp
  have hlast : k2.ptr (k1.tp true) = none := by
    rw [hk2, Cut.storeTp, Cut.store_ptr, Function.update_of_ne hne]
    exact hnull
  have hhigh : Chain (fun f => k2.ptr (.link f)) (k2.ptr (k1.tp false)) (typed true L) := by
    rw [hjoin, ← hroot]
    have hc : Chain _ _ (typed true L ++ []) := (hpath2 true).chain hlast
    rwa [List.append_nil] at hc
  have hnodup : (typed false L ++ typed true L).Nodup := by
    refine List.nodup_append.mpr ⟨h.2.filter _, h.2.filter _, fun a ha b hb hab => ?_⟩
    subst hab
    exact absurd ((mem_typed.mp ha).2.symm.trans (mem_typed.mp hb).2) (by simp)
  refine ⟨⟨(hpath2 false).chain hhigh, hnodup⟩, ⟨honly2.trans rfl, hmem2, htlb2⟩, href2, fun f hf => ?_⟩
  exact (hoff2 f hf).trans (hat1.off f hf)

end

/-- States that differ in the allocator's own data only. -/
theorem PmOnly.ext {s t u : KState} (ht : PmOnly s t) (hu : PmOnly s u) (hm : t.mem = u.mem)
    (htlb : t.tlb = u.tlb) (hp : t.pages = u.pages) (hf : t.pageFreeList = u.pageFreeList) :
    t = u := by
  have h : t.rest = u.rest := Eq.trans ht (Eq.symm hu)
  cases t
  cases u
  simp only [KState.rest, KState.mk.injEq] at h hm htlb hp hf ⊢
  simp_all

/-- The list model of the reordering, which boot runs, does the same. -/
theorem lowFirst_eq_linkList (junk : Bool → Option Nat) {s : KState} {L : List Nat}
    (h : FreeChain s L) (hl : L.length ≤ s.npages) :
    lowFirst junk s = linkList s (L.filter lowPage ++ L.filter fun f => !lowPage f) := by
  obtain ⟨hc, ⟨honly, hmem, htlb⟩, href, hoff⟩ := lowFirst_chain junk h hl
  have hlow : typed false L = L.filter lowPage := List.filter_congr fun f _ => by simp
  have hhigh : typed true L = L.filter fun f => !lowPage f := List.filter_congr fun f _ => by simp
  rw [hlow, hhigh] at hc
  have hlink := linkList_spec s hc.2
  obtain ⟨hhead, hnext⟩ := hc.1.links_eq hlink.chain
  refine honly.ext hlink.only (hmem.trans hlink.mem.symm) (htlb.trans hlink.tlb.symm) ?_ hhead
  funext f
  have hlnk : ((lowFirst junk s).pages f).ppLink = ((linkList s (L.filter lowPage ++
      L.filter fun f => !lowPage f)).pages f).ppLink := by
    by_cases hf : f ∈ L.filter lowPage ++ L.filter fun f => !lowPage f
    · exact hnext f hf
    · have hfL : f ∉ L := fun hfL => hf ((lowFirst_perm L).mem_iff.mpr hfL)
      rw [hlink.off f hf, hoff f hfL]
  have hrf := (href f).trans (hlink.ref f).symm
  cases hx : (lowFirst junk s).pages f
  cases hy : (linkList s (L.filter lowPage ++ L.filter fun f => !lowPage f)).pages f
  rw [hx, hy] at hlnk hrf
  simp only at hlnk hrf
  rw [hlnk, hrf]

/-! ### The pages that should be free -/

/-- `npages_basemem`. -/
def npagesBasemem (p : BootParams) : Nat := p.basemem.toNat / (pgsize / 1024)

/-- `page2kva(pp)` as an address, in 32-bit arithmetic. -/
def page2kvaAddr (pp : Nat) : Word := page2pa pp + kernbase

/-- The kernel reaches the page through its address above `KERNBASE`. -/
def KvaOk (pp : Nat) : Prop :=
  kernbase ≤ page2kvaAddr pp ∧ (page2kvaAddr pp).toNat - kernbase.toNat = pp * pgsize

/-- Frame `f` is memory that nothing uses: base memory below the IO hole, but neither frame 0 nor
    the one of the AP boot code, or memory behind what `boot_alloc` handed out. -/
def RamFree (p : BootParams) (s : KState) (f : Nat) : Prop :=
  (1 ≤ f ∧ f < min (npagesBasemem p) 160 ∧ f ≠ 7) ∨ (paddrFrame s.nextfree ≤ f ∧ f < s.npages)

/-- The free list of `t` is what it should be. -/
def Usable (p : BootParams) (s t : KState) : Prop :=
  ∃ L, FreeChain t L ∧ (∀ f, f ∈ L ↔ RamFree p s f) ∧ ∀ f ∈ L, KvaOk f

/-- The state that `page_init` starts from: memory has been detected, and `boot_alloc` has handed
    out memory behind the kernel, which is linked at 1MB. -/
structure BeforePageInit (p : BootParams) (s : KState) : Prop where
  npages : s.npages = detectMemory p
  pages : s.pages = fun _ => ⟨none, 0⟩
  list : s.pageFreeList = none
  linked : 0xF0100000 ≤ s.nextfree.toNat
  aligned : s.nextfree.toNat % pgsize = 0

section

variable {p : BootParams} {s t : KState}

/-- `mem_init` calls `page_init` in such a state. -/
theorem Arrays.beforePageInit (h : Arrays p s) : BeforePageInit p s := by
  obtain ⟨h1, h2⟩ := h.nextfree
  obtain ⟨h3, h4⟩ := h.kern
  have hkb : kernbase.toNat = 0xF0000000 := by decide
  exact ⟨h.npages, h.pages, h.freeList, by omega, h1⟩

theorem BeforePageInit.end_eq (h : BeforePageInit p s) :
    paddrFrame s.nextfree = (s.nextfree.toNat - 0xF0000000) / 4096 := by
  have hkb : kernbase.toNat = 0xF0000000 := by decide
  have := s.nextfree.isLt
  have := h.linked
  rw [paddrFrame, pgnum, BitVec.toNat_sub, hkb]
  omega

/-- What `page_init` leaves; it does not panic only if memory reaches the end of the kernel. -/
theorem BeforePageInit.run (h : BeforePageInit p s) (hrun : pageInit p s = .ok () t) :
    InitLoop (paddrFrame s.nextfree) s.npages s t ∧ 256 ≤ s.npages ∧ t.npages = s.npages := by
  have hkb : kernbase.toNat = 0xF0000000 := by decide
  have hpg : pgsize = 4096 := rfl
  have hlinked := h.linked
  have haligned := h.aligned
  rw [hpg] at haligned
  have hlt := s.nextfree.isLt
  have hn0 : s.nextfree ≠ 0 := by
    rintro h0
    rw [h0] at hlinked
    exact absurd hlinked (by decide)
  have hround : roundup (s.nextfree + 0) = s.nextfree := by
    have h0 : s.nextfree + 0 = s.nextfree := BitVec.add_zero _
    rw [h0]
    apply BitVec.eq_of_toNat_eq
    rw [roundup_toNat (by omega)]
    omega
  simp only [pageInit, bootAlloc, run_bind, run_get, run_set, run_ite, if_neg hn0, hround] at hrun
  by_cases hshort : BitVec.ofNat 32 (s.npages * pgsize) < s.nextfree - kernbase
  · rw [if_pos hshort] at hrun
    cases hrun
  · rw [if_neg hshort] at hrun
    cases hrun
    have hloop : InitLoop (paddrFrame s.nextfree) s.npages s
        ((List.range s.npages).foldl (pageInitStep (paddrFrame s.nextfree)) s) :=
      pageInit_loop _ h.pages h.list _
    refine ⟨hloop, ?_, hloop.only.npages⟩
    rw [BitVec.lt_def, BitVec.toNat_ofNat, BitVec.toNat_sub, hkb, hpg] at hshort
    have hbase : s.npages * 4096 % 2 ^ 32 ≤ s.npages * 4096 := Nat.mod_le _ _
    omega

/-- The pages that `page_init` lists. -/
theorem BeforePageInit.mem_list (h : BeforePageInit p s) (hrun : pageInit p s = .ok () t)
    {L : List Nat} (hL : FreeChain t L) {f : Nat} :
    f ∈ L ↔ f < s.npages ∧ pageReserved (paddrFrame s.nextfree) f = false := by
  obtain ⟨hloop, -, -⟩ := h.run hrun
  rw [hL.1.unique hloop.chain, mem_initFree]

theorem kvaOk_iff {f : Nat} (hf : f < 2 ^ 20) : KvaOk f ↔ f < 65536 := by
  have hkb : kernbase.toNat = 0xF0000000 := by decide
  have hpg : pgsize = 4096 := rfl
  have hpa : (page2pa f).toNat = f * 4096 := by
    rw [page2pa, BitVec.toNat_ofNat, Nat.mod_eq_of_lt (by omega)]
  rw [KvaOk, page2kvaAddr, BitVec.le_def, BitVec.toNat_add, hpa, hkb, hpg]
  omega

/-- With the page array that `page_init` fills, its list is right exactly if base memory reaches up
    to the IO hole and all of memory is mapped above `KERNBASE`. -/
theorem BeforePageInit.usable_iff (h : BeforePageInit p s) {u : KState} {L : List Nat}
    (hn : 256 ≤ s.npages) (hL : FreeChain u L)
    (hmem : ∀ f, f ∈ L ↔ f < s.npages ∧ pageReserved (paddrFrame s.nextfree) f = false) :
    Usable p s u ↔ 160 ≤ npagesBasemem p ∧ s.npages ≤ 65536 := by
  have hlinked := h.linked
  have hend := h.end_eq
  have hlt := s.nextfree.isLt
  have hmem' : ∀ f, f ∈ L ↔ f < s.npages ∧ f ≠ 0 ∧ ¬ (160 ≤ f ∧ f < paddrFrame s.nextfree) ∧
      f ≠ 7 := by
    intro f
    rw [hmem, pageReserved]
    simp [and_assoc]
  constructor
  · rintro ⟨L', hL', hfree, hkva⟩
    obtain rfl := hL'.1.unique hL.1
    constructor
    · have h159 := (hfree 159).mp ((hmem' 159).mpr (by omega))
      unfold RamFree at h159
      omega
    · by_contra hhigh
      have hlisted := (hmem' 65536).mpr (by omega)
      exact absurd ((kvaOk_iff (by omega)).mp (hkva 65536 hlisted)) (by omega)
  · rintro ⟨hbase, htop⟩
    refine ⟨L, hL, fun f => ?_, fun f hf => ?_⟩
    · rw [hmem', RamFree]
      omega
    · have := ((hmem' f).mp hf).1
      exact (kvaOk_iff (by omega)).mpr (by omega)

end

/-- Whatever memory was detected and wherever `boot_alloc` ended: the free list of `page_init`, and
    the list with the low pages first, hold exactly the unused memory that the kernel can reach if
    and only if base memory reaches up to the IO hole and there is no more memory than the kernel
    maps. -/
theorem free_pages_usable_iff {p : BootParams} {s t : KState} (junk : Bool → Option Nat)
    (h : BeforePageInit p s) (hrun : pageInit p s = .ok () t) :
    (Usable p s t ∧ Usable p s (lowFirst junk t)) ↔
      160 ≤ npagesBasemem p ∧ detectMemory p ≤ 65536 := by
  obtain ⟨hloop, hn, hnp⟩ := h.run hrun
  have hchain : FreeChain t (initFree (paddrFrame s.nextfree) s.npages) :=
    ⟨hloop.chain, nodup_initFree _ _⟩
  have hlen : (initFree (paddrFrame s.nextfree) s.npages).length ≤ t.npages := by
    rw [initFree, List.length_reverse, hnp]
    exact (List.length_filter_le ..).trans (by simp)
  obtain ⟨hlow, -, -, -⟩ := lowFirst_chain junk hchain hlen
  have hperm : ∀ f, f ∈ typed false (initFree (paddrFrame s.nextfree) s.npages) ++
      typed true (initFree (paddrFrame s.nextfree) s.npages) ↔
      f < s.npages ∧ pageReserved (paddrFrame s.nextfree) f = false := by
    intro f
    rw [List.mem_append, mem_typed, mem_typed, ← mem_initFree]
    cases lowPage f <;> simp
  rw [h.usable_iff hn hchain fun f => mem_initFree, h.usable_iff hn hlow hperm, and_self, h.npages]

/-- A machine with `basemem` KB of base memory and 128MB in all, where `boot_alloc` has come up to
    3MB. -/
def withBasemem (basemem : BitVec 16) : BootParams := { demo with basemem := basemem }

def beforeInit : KState :=
  { startState demo with npages := 32768, nextfree := 0xF0300000 }

theorem beforeInit_ready (basemem : BitVec 16) :
    BeforePageInit (withBasemem basemem) beforeInit := by
  refine ⟨?_, rfl, rfl, by decide, by decide⟩
  have hext : (withBasemem basemem).ext16mem = 1792 := rfl
  have hne : (1792 : BitVec 16).toNat * 64 ≠ 0 := by decide
  unfold detectMemory
  rw [hext]
  simp only
  rw [if_pos hne]
  rfl

theorem beforeInit_run (basemem : BitVec 16) :
    ∃ t, pageInit (withBasemem basemem) beforeInit = .ok () t := by
  have hround : roundup (beforeInit.nextfree + 0) = beforeInit.nextfree := by decide
  have hn0 : beforeInit.nextfree ≠ 0 := by decide
  have hfits : ¬ BitVec.ofNat 32 (beforeInit.npages * pgsize) < beforeInit.nextfree - kernbase := by
    decide
  simp only [pageInit, bootAlloc, run_bind, run_get, run_set, if_neg hn0, hround, if_neg hfits,
    run_modify, run_pure]
  exact ⟨_, rfl⟩

/-- With 640KB of base memory the list is right. -/
theorem free_pages_usable_640 : ∃ t, pageInit (withBasemem 640) beforeInit = .ok () t ∧
    Usable (withBasemem 640) beforeInit t ∧
      Usable (withBasemem 640) beforeInit (lowFirst (fun _ => none) t) := by
  obtain ⟨t, hrun⟩ := beforeInit_run 640
  exact ⟨t, hrun, (free_pages_usable_iff _ (beforeInit_ready 640) hrun).mpr (by decide)⟩

/-- With 512KB of base memory the frames from 512KB up to the IO hole are listed as free. -/
theorem missing_base_memory_listed : ∃ t, pageInit (withBasemem 512) beforeInit = .ok () t ∧
    (∀ L, FreeChain t L → 130 ∈ L) ∧ ¬ RamFree (withBasemem 512) beforeInit 130 ∧
      ¬ Usable (withBasemem 512) beforeInit t := by
  obtain ⟨t, hrun⟩ := beforeInit_run 512
  have he : paddrFrame beforeInit.nextfree = 768 := by decide
  have hlisted : ∀ L, FreeChain t L → 130 ∈ L := by
    rintro L hL
    rw [(beforeInit_ready 512).mem_list hrun hL, he]
    exact ⟨show 130 < 32768 by omega, by decide⟩
  have hnot : ¬ RamFree (withBasemem 512) beforeInit 130 := by
    have hb : npagesBasemem (withBasemem 512) = 128 := by decide
    unfold RamFree
    rw [hb, he]
    omega
  refine ⟨t, hrun, hlisted, hnot, ?_⟩
  rintro ⟨L, hL, hfree, -⟩
  exact hnot ((hfree 130).mp (hlisted L hL))

end Jos
