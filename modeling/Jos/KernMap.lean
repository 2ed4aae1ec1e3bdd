import Jos.FreeList
import Jos.Invariant
import Jos.Sched

/-!
  The kernel's part of the address space, as boot builds it (`boot_map_region`,
  `mmio_map_region`).

  Boot may run out of pages for page tables. It cannot as long as there are as many free pages as
  the kernel's directory has entries without a table (`missing`). -/

namespace Jos

open Lib RefCount

/-- Directory entries of the kernel that have no page table yet. -/
def missing (s : KState) : Nat :=
  (Finset.univ.filter fun i : Idx => i ≠ uvptPdx ∧ tabFrame s none i = none).card

/-- What boot does not touch while it maps memory. -/
structure BootFrame (s t : KState) : Prop where
  limits : SameLimits s t
  envs : t.envs = s.envs
  envFreeList : t.envFreeList = s.envFreeList
  cpus : t.cpus = s.cpus

theorem BootFrame.refl (s : KState) : BootFrame s s := ⟨.refl s, rfl, rfl, rfl⟩

theorem BootFrame.trans {s t u : KState} (h : BootFrame s t) (h' : BootFrame t u) : BootFrame s u :=
  ⟨h.limits.trans h'.limits, h'.envs.trans h.envs, h'.envFreeList.trans h.envFreeList,
    h'.cpus.trans h.cpus⟩

theorem BootFrame.of_pmOnly {s t : KState} (h : PmOnly s t) : BootFrame s t :=
  ⟨h.limits, h.envs, h.envFreeList, h.cpus⟩

/-- Exit condition of boot code under the assumption `C` that it has all it needs: it does not exit,
    and in any case only by a panic. -/
def Short (C : Prop) (x : Stop) (_ : KState) : Prop := x = .panic ∧ ¬ C

@[simp] theorem short_panic {C : Prop} {t : KState} : Short C .panic t ↔ ¬ C := by simp [Short]

/-- The kernel while it boots, before the first environment exists. Under `C` there are free pages
    for all page tables that are missing, and `k` more. -/
structure Booting (C : Prop) (k : ℕ) (s : KState) : Prop where
  page : ∃ L, PageInv s L ∅ ∧ (C → missing s + k ≤ L.length)
  envs : s.envs = emptyEnv
  cpus : ∀ k, (s.cpus k).mode ≠ .user ∧ (s.cpus k).cpuEnv = none
  flags : ∀ i j, pteAt s none i j &&& userWrite ≠ userWrite
  pdes : ∀ i, i ≠ uvptPdx → s.mem s.kernPgdir i = 0 ∨
    ∃ T, s.mem s.kernPgdir i = page2pa T ||| pteP ||| pteW ||| pteU
  mmio : mmiobase.toNat ≤ s.mmioBase.toNat ∧ s.mmioBase.toNat < mmiolim.toNat ∧
    s.mmioBase.toNat % 4096 = 0

/-- An edit of kernel mappings: only pages numbered in `D` changed. -/
structure BootStep (D : Nat → Prop) (s t : KState) : Prop where
  frame : BootFrame s t
  pde : ∀ i, s.mem s.kernPgdir i ≠ 0 → t.mem s.kernPgdir i = s.mem s.kernPgdir i
  pte : ∀ i j, ¬ D (i.val * 1024 + j.val) → pteAt t none i j = pteAt s none i j

namespace BootStep

variable {D D' : Nat → Prop} {s t u : KState}

theorem refl (D : Nat → Prop) (s : KState) : BootStep D s s :=
  ⟨.refl s, fun _ _ => rfl, fun _ _ _ => rfl⟩

theorem trans (h : BootStep D s t) (h' : BootStep D t u) : BootStep D s u where
  frame := h.frame.trans h'.frame
  pde i hi := by
    have h1 := h.pde i hi
    have h2 := h'.pde i (by rw [h.frame.limits.kernPgdir, h1]; exact hi)
    rw [h.frame.limits.kernPgdir] at h2
    rw [h2, h1]
  pte i j hn := by rw [h'.pte i j hn, h.pte i j hn]

theorem mono (h : BootStep D s t) (hD : ∀ v, D v → D' v) : BootStep D' s t :=
  ⟨h.frame, h.pde, fun i j hn => h.pte i j fun hx => hn (hD _ hx)⟩

end BootStep

section

variable {C : Prop} {k : ℕ} {L : List Nat} {s : KState}

theorem missing_pos {i : Idx} (hi : i ≠ uvptPdx) (h : tabFrame s none i = none) : 0 < missing s :=
  Finset.card_pos.mpr ⟨i, by simp [hi, h]⟩

/-- A page table entered by the walk fills one gap. -/
theorem Booting.newTable {T : Nat} {i : Idx} (h : Booting C k s) (hL : PageInv s (T :: L) ∅)
    (hi : i ≠ uvptPdx) (hn : tabFrame s none i = none) :
    Booting C k (newTable s s.kernPgdir i T) ∧ PmOnly s (newTable s s.kernPgdir i T) ∧
      BootStep (fun _ => False) s (newTable s s.kernPgdir i T) ∧
      tabFrame (newTable s s.kernPgdir i T) none i = some T := by
  obtain ⟨hinv, hedit, htab, -, hpte, -, htgt⟩ := newTable_spec hL (o := none) rfl hi hn
  have hTL : T ∈ T :: L := List.mem_cons_self ..
  have hkT : s.kernPgdir ≠ T := fun e => hL.kern (e ▸ hL.counted.managed T hTL)
  have hker : ∀ i', (Jos.newTable s s.kernPgdir i T).mem s.kernPgdir i'
      = if i' = i then page2pa T ||| pteP ||| pteW ||| pteU else s.mem s.kernPgdir i' := by
    intro i'
    unfold Jos.newTable
    rw [KState.poke_mem_self]
    split
    · rfl
    · simp [hkT]
  have hk : (Jos.newTable s s.kernPgdir i T).kernPgdir = s.kernPgdir := hedit.only.kernPgdir
  have hent : entryFrame (s.mem s.kernPgdir i) = none := by
    rw [← tabFrame_of_dir (o := none) rfl hi]; exact hn
  -- one gap less
  have hcount : missing s = missing (Jos.newTable s s.kernPgdir i T) + 1 := by
    have hset : (Finset.univ.filter fun i' : Idx => i' ≠ uvptPdx ∧
        tabFrame (Jos.newTable s s.kernPgdir i T) none i' = none)
        = (Finset.univ.filter fun i' : Idx => i' ≠ uvptPdx ∧ tabFrame s none i' = none).erase i := by
      ext i'
      have ht : tabFrame (Jos.newTable s s.kernPgdir i T) none i'
          = if i' = i then some T else tabFrame s none i' := by
        have := congrFun htgt (.tab none i')
        simp only [target, Function.update_apply] at this
        simpa using this
      simp only [Finset.mem_filter, Finset.mem_univ, true_and, Finset.mem_erase, ht]
      by_cases hii : i' = i <;> simp [hii]
    have hmem : i ∈ Finset.univ.filter fun i' : Idx => i' ≠ uvptPdx ∧ tabFrame s none i' = none := by
      simp [hi, hn]
    unfold missing
    rw [hset, Finset.card_erase_add_one hmem]
  refine ⟨⟨⟨L, hinv, fun hC => ?_⟩, by rw [hedit.only.envs]; exact h.envs,
    by rw [hedit.only.cpus]; exact h.cpus, fun i' j => by rw [hpte]; exact h.flags i' j,
    fun i' hi' => ?_, ?_⟩, hedit.only,
    ⟨.of_pmOnly hedit.only, fun i' hi' => ?_, fun _ _ _ => by rw [hpte]⟩, htab⟩
  · obtain ⟨L₁, h₁, hroom⟩ := h.page
    obtain rfl := hL.unique h₁
    have := hroom hC
    rw [List.length_cons] at this
    omega
  · rw [hk, hker]
    split
    · exact Or.inr ⟨T, rfl⟩
    · exact h.pdes i' hi'
  · rw [hedit.only.mmioBase]; exact h.mmio
  · rw [hker, if_neg]
    rintro rfl
    rcases h.pdes i' hi with h0 | ⟨T', hT'⟩
    · exact hi' h0
    · rw [hT', entryFrame_eq_none] at hent
      have : page2pa T' ||| pteP ||| pteW ||| pteU = page2pa T' ||| (pteW ||| pteU) ||| pteP := by
        ext x; simp only [BitVec.getElem_or]; cases (page2pa T')[x] <;> cases pteP[x] <;> simp
      rw [this] at hent
      exact present_or _ hent

/-- Writing an entry that gives user code no write access. -/
theorem Booting.poke {T : Nat} {i j : Idx} {w : Word} (h : Booting C k s)
    (hT : tabFrame s none i = some T) (hw : w &&& userWrite ≠ userWrite) :
    Booting C k (s.poke T j w) ∧
      BootStep (fun v => v = i.val * 1024 + j.val) s (s.poke T j w) ∧
      ∀ i' j', pteAt (s.poke T j w) none i' j'
        = if i' = i ∧ j' = j then w else pteAt s none i' j' := by
  obtain ⟨L, hL, hroom⟩ := h.page
  have hsep := hL.separate
  have hpte : ∀ i' j', pteAt (s.poke T j w) none i' j'
      = if i' = i ∧ j' = j then w else pteAt s none i' j' := by
    intro i' j'
    rw [pteAt_poke_pte hsep hT]
    simp
  have hkT : s.kernPgdir ≠ T := fun e => hsep.tab_ne_dir (q := none) hT (by rw [← e]; rfl) rfl
  have hker : (s.poke T j w).mem s.kernPgdir = s.mem s.kernPgdir := by
    rw [KState.poke_mem_of_ne _ _ _ _ hkT]
  have hcount : missing (s.poke T j w) = missing s := by
    unfold missing
    rw [tabFrame_poke_pte hsep hT]
  refine ⟨⟨⟨L, ?_, fun hC => by rw [hcount]; exact hroom hC⟩, h.envs, h.cpus, fun i' j' => ?_,
    fun i' hi' => ?_, h.mmio⟩, ⟨.of_pmOnly (.poke _ _ _ _), fun i' _ => ?_,
    fun i' j' hn => ?_⟩, hpte⟩
  · exact hL.congr (target_poke_kern hsep hT j w) rfl rfl rfl rfl rfl
  · rw [hpte]
    split
    · exact hw
    · exact h.flags i' j'
  · rw [show (s.poke T j w).kernPgdir = s.kernPgdir from rfl, hker]; exact h.pdes i' hi'
  · rw [hker]
  · rw [hpte, if_neg]
    rintro ⟨rfl, rfl⟩
    exact hn rfl

/-- One page of `boot_map_region`. -/
theorem Booting.mapPage {va w : Word} (h : Booting C k s) (hi : pdx va ≠ uvptPdx)
    (hw : w &&& userWrite ≠ userWrite) :
    (¬ C ∧ pgdirWalk s.kernPgdir va true s = .ok none s) ∨
      ∃ T m, pgdirWalk s.kernPgdir va true s = .ok (some (T, ptx va)) m ∧
        Booting C k (m.poke T (ptx va) w) ∧ PmOnly s (m.poke T (ptx va) w) ∧
        BootStep (fun v => v = pgnum va) s (m.poke T (ptx va) w) ∧
        pteAt (m.poke T (ptx va) w) none (pdx va) (ptx va) = w := by
  have hent : tabFrame s none (pdx va) = entryFrame (s.mem s.kernPgdir (pdx va)) :=
    tabFrame_of_dir (o := none) rfl hi
  have hstep : ∀ {m : KState} {T : Nat}, Booting C k m → PmOnly s m →
      BootStep (fun _ => False) s m → tabFrame m none (pdx va) = some T →
      Booting C k (m.poke T (ptx va) w) ∧ PmOnly s (m.poke T (ptx va) w) ∧
        BootStep (fun v => v = pgnum va) s (m.poke T (ptx va) w) ∧
        pteAt (m.poke T (ptx va) w) none (pdx va) (ptx va) = w := by
    intro m T hm ho hs hT
    obtain ⟨h1, h2, h3⟩ := hm.poke (j := ptx va) hT hw
    refine ⟨h1, ho.trans (.poke _ _ _ _), (hs.mono fun _ hx => hx.elim).trans (h2.mono fun v hv => ?_), ?_⟩
    · rw [hv, pgnum_eq]
    · rw [h3, if_pos ⟨rfl, rfl⟩]
  obtain ⟨L, hL, hroom⟩ := h.page
  cases ht : tabFrame s none (pdx va) with
  | some T =>
    refine Or.inr ⟨T, s, pgdirWalk_found (hent ▸ ht) (hL.tab_lt ht) hL.window true, ?_⟩
    exact hstep h (.refl s) (.refl _ s) ht
  | none =>
    cases L with
    | nil =>
      refine Or.inl ⟨fun hC => ?_, pgdirWalk_full hL.chain (hent ▸ ht)⟩
      have := missing_pos hi ht
      have := hroom hC
      rw [List.length_nil] at this
      omega
    | cons T L' =>
      obtain ⟨h1, h2, h3, h4⟩ := h.newTable hL hi ht
      exact Or.inr ⟨T, _, pgdirWalk_new hL.chain.1
        (hL.counted.managed T (List.mem_cons_self ..)).1 hL.window (hent ▸ ht), hstep h1 h2 h3 h4⟩

/-- The word that `boot_map_region` puts at page `v`. -/
def regionEntry (v0 : Nat) (pa perm : Word) (v : Nat) : Word :=
  (pa + BitVec.ofNat 32 ((v - v0) * 4096)) ||| perm ||| pteP

/-- The flag bits of an entry for a page-aligned address. -/
theorem entry_flags {q perm m : Word} (ha : q.toNat % 4096 = 0) (hm : 0xFFF &&& m = m) :
    (q ||| perm ||| pteP) &&& m = (perm ||| pteP) &&& m := by
  have h0 : q &&& m = 0 := by
    have h1 : q &&& 0xFFF = 0 := by
      apply BitVec.eq_of_toNat_eq
      rw [BitVec.toNat_and]
      have : (0xFFF : Word).toNat = 2 ^ 12 - 1 := by decide
      rw [this, Nat.and_two_pow_sub_one_eq_mod]
      exact ha
    rw [← hm, ← BitVec.and_assoc, h1]
    exact BitVec.zero_and
  have hor : (q ||| perm ||| pteP) &&& m = (q &&& m) ||| ((perm ||| pteP) &&& m) := by
    ext x
    simp only [BitVec.getElem_or, BitVec.getElem_and]
    cases q[x] <;> cases perm[x] <;> cases pteP[x] <;> cases m[x] <;> rfl
  rw [hor, h0]
  exact BitVec.zero_or

theorem region_flags {pa perm : Word} (ha : pa.toNat % 4096 = 0)
    (hp : (perm ||| pteP) &&& userWrite ≠ userWrite) (k : Nat) :
    ((pa + BitVec.ofNat 32 (k * 4096)) ||| perm ||| pteP) &&& userWrite ≠ userWrite := by
  rw [entry_flags (by rw [BitVec.toNat_add, BitVec.toNat_ofNat]; omega) (by decide)]
  exact hp

theorem pgnum_add {va : Word} {k : Nat} (ha : va.toNat % 4096 = 0)
    (hb : va.toNat + k * 4096 < 2 ^ 32) :
    (va + BitVec.ofNat 32 (k * 4096)).toNat = va.toNat + k * 4096 := by
  rw [BitVec.toNat_add, BitVec.toNat_ofNat]
  omega

/-- The page of an address in a mapped region. -/
theorem idx_of_pgnum {va : Word} {i j : Idx} (h : i.val * 1024 + j.val = pgnum va) :
    i = pdx va ∧ j = ptx va := by
  rw [pgnum_eq] at h
  have := j.isLt
  have := (ptx va).isLt
  exact ⟨Fin.ext (by omega), Fin.ext (by omega)⟩

/-- The entries of the `n` pages from `va` on map the frames from `pa` on. -/
def MapsRegion (va pa perm : Word) (n : Nat) (t : KState) : Prop :=
  ∀ i j : Idx, pgnum va ≤ i.val * 1024 + j.val → i.val * 1024 + j.val < pgnum va + n →
    pteAt t none i j = regionEntry (pgnum va) pa perm (i.val * 1024 + j.val)

/-- `boot_map_region` over `n` pages, none of them in the recursive mapping. -/
theorem bootMapLoop_wp {perm : Word} (hp : (perm ||| pteP) &&& userWrite ≠ userWrite) :
    ∀ (n : Nat) (va pa : Word) {s : KState}, Booting C k s →
      va.toNat % 4096 = 0 → va.toNat + n * 4096 ≤ 2 ^ 32 →
      (∀ m, m < n → (pgnum va + m) / 1024 ≠ uvptPdx.val) → pa.toNat % 4096 = 0 →
      wp (bootMapLoop s.kernPgdir perm n va pa) (fun _ t => Booting C k t ∧ PmOnly s t ∧
        BootStep (fun v => pgnum va ≤ v ∧ v < pgnum va + n) s t ∧ MapsRegion va pa perm n t)
        (Short C) s
  | 0, va, pa, s, h, _, _, _, _ =>
    (wp_pure _).mpr ⟨h, .refl s, .refl _ s, fun i j h1 h2 => by omega⟩
  | n + 1, va, pa, s, h, hva, hlen, huv, hpa => by
    have hi : pdx va ≠ uvptPdx := by
      intro he
      refine huv 0 (by omega) ?_
      rw [← he, pdx_val, pgnum]
      omega
    have hw0 : regionEntry (pgnum va) pa perm (pgnum va) = pa ||| perm ||| pteP := by
      simp [regionEntry]
    have hflag : (pa ||| perm ||| pteP) &&& userWrite ≠ userWrite := by
      have := region_flags hpa hp 0
      simpa using this
    unfold bootMapLoop
    rcases h.mapPage hi hflag with ⟨hshort, hrun⟩ | ⟨T, m, hrun, h1, ho, h2, h3⟩
    · rw [wp_bind, wp_ok hrun]
      simpa using hshort
    rw [wp_bind, wp_ok hrun]
    simp only [wp_bind, wp_modify]
    set m' := m.poke T (ptx va) (pa ||| perm ||| pteP) with hm'
    have hk : m'.kernPgdir = s.kernPgdir := h2.frame.limits.kernPgdir
    have hpgsize : BitVec.ofNat 32 pgsize = BitVec.ofNat 32 (1 * 4096) := rfl
    by_cases hn : n = 0
    · subst hn
      refine (wp_pure _).mpr ⟨h1, ho, h2.mono fun v hv => by omega, fun i j hge hlt => ?_⟩
      have hv : i.val * 1024 + j.val = pgnum va := by omega
      obtain ⟨rfl, rfl⟩ := idx_of_pgnum hv
      rw [show (pdx va).val * 1024 + (ptx va).val = pgnum va from (pgnum_eq va).symm, hw0]
      exact h3
    have hva' : (va + BitVec.ofNat 32 pgsize).toNat = va.toNat + 4096 := by
      rw [hpgsize, pgnum_add hva (by omega)]
    have hpg : pgnum (va + BitVec.ofNat 32 pgsize) = pgnum va + 1 := by
      rw [pgnum, hva', pgnum]; omega
    have hpa' : (pa + BitVec.ofNat 32 pgsize).toNat % 4096 = 0 := by
      rw [hpgsize, BitVec.toNat_add, BitVec.toNat_ofNat]
      omega
    rw [← hk]
    refine (bootMapLoop_wp hp n (va + BitVec.ofNat 32 pgsize) (pa + BitVec.ofNat 32 pgsize) h1
      (by omega) (by omega)
      (fun m hm => by rw [hpg, show pgnum va + 1 + m = pgnum va + (m + 1) by omega]
                      exact huv (m + 1) (by omega)) hpa').mono
      (fun _ t ht => ?_) fun _ _ hR => hR
    obtain ⟨hb, ho', hs, he⟩ := ht
    rw [hpg] at hs
    refine ⟨hb, ho.trans ho', (h2.mono fun v hv => by omega).trans (hs.mono fun v hv => by omega),
      fun i j hge hlt => ?_⟩
    by_cases hv : i.val * 1024 + j.val = pgnum va
    · obtain ⟨rfl, rfl⟩ := idx_of_pgnum hv
      rw [hs.pte _ _ (by omega), hv, hw0]
      exact h3
    · rw [he i j (by omega) (by omega)]
      have hsum : BitVec.ofNat 32 pgsize +
          BitVec.ofNat 32 ((i.val * 1024 + j.val - (pgnum va + 1)) * 4096)
          = BitVec.ofNat 32 ((i.val * 1024 + j.val - pgnum va) * 4096) := by
        rw [hpgsize, ← BitVec.ofNat_add,
          show 1 * 4096 + (i.val * 1024 + j.val - (pgnum va + 1)) * 4096
            = (i.val * 1024 + j.val - pgnum va) * 4096 by omega]
      rw [regionEntry, regionEntry, hpg, BitVec.add_assoc, hsum]

/-- `boot_map_region` of `n` pages. -/
theorem bootMapRegion_wp {va size pa perm : Word} (n : Nat) (h : Booting C k s)
    (hn : (size.toNat + (pgsize - 1)) / pgsize = n)
    (hp : (perm ||| pteP) &&& userWrite ≠ userWrite) (hva : va.toNat % 4096 = 0)
    (hlen : va.toNat + n * 4096 ≤ 2 ^ 32)
    (huv : ∀ m, m < n → (pgnum va + m) / 1024 ≠ uvptPdx.val) (hpa : pa.toNat % 4096 = 0) :
    wp (bootMapRegion s.kernPgdir va size pa perm) (fun _ t => Booting C k t ∧ PmOnly s t ∧
      BootStep (fun v => pgnum va ≤ v ∧ v < pgnum va + n) s t ∧ MapsRegion va pa perm n t)
      (Short C) s := by
  unfold bootMapRegion
  rw [hn]
  exact bootMapLoop_wp hp n va pa h hva hlen huv hpa

/-- A region that was mapped has a page table. -/
theorem MapsRegion.pde_ne {va pa perm : Word} {n : Nat} (h : MapsRegion va pa perm n s)
    (hn : 0 < n) : s.mem s.kernPgdir (pdx va) ≠ 0 := by
  intro h0
  have hpte := h (pdx va) (ptx va) (by rw [← pgnum_eq]) (by rw [← pgnum_eq]; omega)
  have hnt : tabFrame s none (pdx va) = none := by
    unfold tabFrame pdeAt
    split
    · simp [dirFrame, h0]
    · rfl
  rw [pteAt_of_no_tab hnt] at hpte
  have := present_or ((pa + BitVec.ofNat 32 (((pdx va).val * 1024 + (ptx va).val - pgnum va) * 4096))
    ||| perm)
  rw [← regionEntry, ← hpte] at this
  exact this rfl

theorem Booting.tab_of_pde {i : Idx} (h : Booting C k s) (hi : i ≠ uvptPdx)
    (h0 : s.mem s.kernPgdir i ≠ 0) : ∃ T, tabFrame s none i = some T := by
  rw [tabFrame_of_dir (o := none) rfl hi]
  obtain ⟨T, hT⟩ := (h.pdes i hi).resolve_left h0
  have : page2pa T ||| pteP ||| pteW ||| pteU = page2pa T ||| (pteW ||| pteU) ||| pteP := by
    ext x; simp only [BitVec.getElem_or]; cases (page2pa T)[x] <;> cases pteP[x] <;> simp
  exact ⟨_, entryFrame_of_present (by rw [hT, this]; exact present_or _)⟩

/-- `*pgdir_walk(kern_pgdir, va, 0) = 0`. -/
theorem clearKernPte_wp {va : Word} (h : Booting C k s) (hi : pdx va ≠ uvptPdx)
    (hC : C → s.mem s.kernPgdir (pdx va) ≠ 0) :
    wp (clearKernPte va) (fun _ t => Booting C k t ∧ PmOnly s t ∧
      BootStep (fun v => v = pgnum va) s t) (Short C) s := by
  unfold clearKernPte
  simp only [wp_bind, wp_get]
  have hent := tabFrame_of_dir (s := s) (o := none) (i := pdx va) rfl hi
  cases ht : tabFrame s none (pdx va) with
  | none =>
    rw [wp_ok (pgdirWalk_absent (hent ▸ ht))]
    simp only [wp_throw, short_panic]
    intro hc
    obtain ⟨T, hT⟩ := h.tab_of_pde hi (hC hc)
    rw [ht] at hT
    cases hT
  | some T =>
    obtain ⟨L, hL, -⟩ := h.page
    rw [wp_ok (pgdirWalk_found (hent ▸ ht) (hL.tab_lt ht) hL.window false)]
    simp only [wp_modify]
    obtain ⟨h1, h2, -⟩ := h.poke (j := ptx va) (w := 0) ht (by decide)
    exact ⟨h1, .poke _ _ _ _, h2.mono fun v hv => by rw [hv, pgnum_eq]⟩

/-- `mmio_map_region` maps one or two pages for a page-sized device. -/
theorem mmio_size (pa : Word) :
    (roundup (pa + 4096) - rounddown pa).toNat = if pa.toNat % 4096 = 0 then 4096 else 8192 := by
  have hpa := pa.isLt
  have h1 : (pa + 4096).toNat = (pa.toNat + 4096) % 2 ^ 32 := by
    rw [BitVec.toNat_add]; rfl
  have h2 : (pa + 4096 + BitVec.ofNat 32 (pgsize - 1)).toNat = (pa.toNat + 8191) % 2 ^ 32 := by
    rw [BitVec.toNat_add, h1]
    show ((pa.toNat + 4096) % 2 ^ 32 + 4095) % 2 ^ 32 = _
    omega
  rw [BitVec.toNat_sub, roundup, rounddown_toNat, rounddown_toNat, h2]
  split <;> omega

/-- `mmio_map_region`, when its test against `MMIOLIM` does not wrap. -/
theorem mmioMapRegion_maps (pa size : Word) (h : Booting C k s) {n : Nat}
    (hsize : (roundup (pa + size) - rounddown pa).toNat = n * 4096)
    (hwrap : s.mmioBase.toNat + n * 4096 < 2 ^ 32)
    (hC : C → s.mmioBase.toNat + n * 4096 < mmiolim.toNat) :
    wp (mmioMapRegion pa size) (fun va t => va = s.mmioBase ∧ Booting C k t ∧
      BootStep (fun v => pgnum s.mmioBase ≤ v ∧ v < pgnum s.mmioBase + n) s t ∧
      MapsRegion s.mmioBase (rounddown pa) (ptePcd ||| ptePwt ||| pteW) n t ∧
      t.mmioBase.toNat = s.mmioBase.toNat + n * 4096) (Short C) s := by
  obtain ⟨hlo, hhi, hal⟩ := h.mmio
  have hb : mmiobase.toNat = 0xEF800000 := by decide
  have hl : mmiolim.toNat = 0xEFC00000 := by decide
  have huv : uvptPdx.val = 957 := by decide
  set size' := roundup (pa + size) - rounddown pa with hs'
  have hsum : (s.mmioBase + size').toNat = s.mmioBase.toNat + n * 4096 := by
    rw [BitVec.toNat_add]; omega
  unfold mmioMapRegion
  simp only [wp_bind, wp_get, wp_ite, wp_throw, short_panic]
  rw [← hs']
  refine ⟨fun hlim hc => ?_, fun hlim => ?_⟩
  · have := hC hc
    rw [BitVec.le_def, hsum] at hlim
    omega
  rw [BitVec.le_def, hsum] at hlim
  have hpg : pgnum s.mmioBase = s.mmioBase.toNat / 4096 := rfl
  have hn : (size'.toNat + (pgsize - 1)) / pgsize = n := by
    show (size'.toNat + 4095) / 4096 = _
    omega
  refine (bootMapRegion_wp n h hn (by decide) hal (by omega) (fun m hm => by rw [hpg, huv]; omega)
    (by rw [rounddown_toNat]; omega)).mono (fun _ t ht => ?_) fun _ _ hR => hR
  obtain ⟨hb', ho, hst, hmap⟩ := ht
  simp only [wp_modify, wp_pure]
  have hbase : (t.mmioBase + size').toNat = s.mmioBase.toNat + n * 4096 := by
    rw [ho.mmioBase, hsum]
  obtain ⟨htab, hpte⟩ := tables_congr (s := t) (t := { t with mmioBase := t.mmioBase + size' })
    rfl (fun _ => rfl) rfl
  refine ⟨trivial, ⟨?_, hb'.envs, hb'.cpus, fun i j => by rw [hpte]; exact hb'.flags i j,
    hb'.pdes, ?_⟩, ⟨hst.frame.trans ⟨⟨rfl, rfl, rfl, rfl, rfl⟩, rfl, rfl, rfl⟩, hst.pde,
      fun i j hx => ?_⟩, fun i j h1 h2 => ?_, hbase⟩
  · obtain ⟨L, hL, hroom⟩ := hb'.page
    refine ⟨L, hL.congr (target_congr (fun _ => rfl) rfl rfl) rfl rfl rfl rfl rfl, ?_⟩
    unfold missing at hroom ⊢
    rw [htab]
    exact hroom
  · show mmiobase.toNat ≤ (t.mmioBase + size').toNat ∧ (t.mmioBase + size').toNat < mmiolim.toNat ∧
      (t.mmioBase + size').toNat % 4096 = 0
    omega
  · rw [hpte]
    exact hst.pte i j hx
  · rw [hpte]
    exact hmap i j h1 h2

/-- `mmio_map_region`, when the region takes at most two pages. -/
theorem mmioMapRegion_wp (pa size : Word) (h : Booting C k s)
    (hsize : (roundup (pa + size) - rounddown pa).toNat = 4096 ∨
      (roundup (pa + size) - rounddown pa).toNat = 8192)
    (hC : C → s.mmioBase.toNat + 8192 < mmiolim.toNat) :
    wp (mmioMapRegion pa size) (fun va t => va = s.mmioBase ∧ Booting C k t ∧
      BootStep (fun v => pgnum mmiobase ≤ v ∧ v < pgnum mmiolim) s t ∧
      t.mmioBase.toNat = s.mmioBase.toNat + (roundup (pa + size) - rounddown pa).toNat ∧
      t.mem t.kernPgdir (pdx mmiobase) ≠ 0) (Short C) s := by
  obtain ⟨hlo, hhi, hal⟩ := h.mmio
  have hb : mmiobase.toNat = 0xEF800000 := by decide
  have hl : mmiolim.toNat = 0xEFC00000 := by decide
  have hpb : pgnum mmiobase = 0xEF800 := by decide
  have hpl : pgnum mmiolim = 0xEFC00 := by decide
  obtain ⟨n, hn, hsz⟩ : ∃ n, (n = 1 ∨ n = 2) ∧
      (roundup (pa + size) - rounddown pa).toNat = n * 4096 := by
    rcases hsize with hsz | hsz
    · exact ⟨1, Or.inl rfl, hsz⟩
    · exact ⟨2, Or.inr rfl, hsz⟩
  have hpg : pgnum s.mmioBase = s.mmioBase.toNat / 4096 := rfl
  have hpd : pdx s.mmioBase = pdx mmiobase := by
    apply Fin.ext
    rw [pdx_val, pdx_val]
    omega
  refine (mmioMapRegion_maps pa size h hsz (by omega) fun hc => by have := hC hc; omega).mono
    (fun va t ht => ?_) fun _ _ hR => hR
  obtain ⟨hva, hbt, hst, hmap, hbase⟩ := ht
  have hlim := hbt.mmio
  refine ⟨hva, hbt, hst.mono fun v hv => by omega, by omega, ?_⟩
  have hpde := hmap.pde_ne (by omega)
  rwa [hpd] at hpde

end

end Jos
