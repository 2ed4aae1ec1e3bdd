import Jos.HighMem
import Jos.TrapInv

/-!
  Boot ends in a state that meets the invariant, with the first environment running. -/

namespace Jos

open Lib RefCount

section

variable {C : Prop} {k n : ℕ} {T : Prop} {c : CpuIdx} {s t : KState} {p : BootParams}

/-! ### Before the first environment -/

/-- A state that differs only in fields which the mappings and the allocator do not depend on. -/
theorem Booting.congr (h : Booting C k s) (hm : t.mem = s.mem) (hp : t.pages = s.pages)
    (hf : t.pageFreeList = s.pageFreeList) (hl : SameLimits s t) (he : t.envs = s.envs)
    (hb : t.mmioBase = s.mmioBase) (hc : ∀ k, (t.cpus k).mode ≠ .user ∧ (t.cpus k).cpuEnv = none) :
    Booting C k t := by
  obtain ⟨L, hL, hroom⟩ := h.page
  have hd : ∀ e, (t.envs e).envPgdir = (s.envs e).envPgdir := fun e => by rw [he]
  obtain ⟨htab, hpte⟩ := tables_congr hm hd hl.kernPgdir
  have hmiss : missing t = missing s := by unfold missing; rw [htab]
  exact ⟨⟨L, pageInv_congr hL hm hd hp hf hl, by rw [hmiss]; exact hroom⟩,
    by rw [he]; exact h.envs, hc, fun i j => by rw [hpte]; exact h.flags i j,
    by rw [hm, hl.kernPgdir]; exact h.pdes, by rw [hb]; exact h.mmio⟩

/-- The kernel with its memory and its free environments, before `env_create`. -/
structure Ready (C : Prop) (k : ℕ) (s : KState) : Prop where
  boot : Booting C k s
  pages : PagesMap s
  free : s.envFreeList = some 0

/-- `env_init` leaves pages and tables alone. -/
theorem MemReady.envInit (h : MemReady C k s) :
    Ready C k { s with envs := emptyEnv, envFreeList := some 0 } := by
  have hd : ∀ e, (emptyEnv e).envPgdir = (s.envs e).envPgdir := fun e => by rw [h.boot.envs]
  obtain ⟨-, hpte⟩ := tables_congr (s := s)
    (t := { s with envs := emptyEnv, envFreeList := some 0 }) rfl hd rfl
  exact ⟨h.boot.congr rfl rfl rfl ⟨rfl, rfl, rfl, rfl, rfl⟩ h.boot.envs.symm rfl h.boot.cpus,
    h.pages.congr ⟨rfl, rfl, rfl, rfl, rfl⟩ rfl fun i j => by rw [hpte], rfl⟩

theorem Ready.setCpu (h : Ready C k s) (c : CpuIdx) {v : CpuInfo} (hv : v.mode ≠ .user)
    (hn : v.cpuEnv = none) : Ready C k (s.setCpu c v) := by
  refine ⟨h.boot.congr rfl rfl rfl ⟨rfl, rfl, rfl, rfl, rfl⟩ rfl rfl fun i => ?_,
    h.pages.congr ⟨rfl, rfl, rfl, rfl, rfl⟩ rfl fun _ _ => rfl, h.free⟩
  by_cases hi : i = c
  · subst hi; simp [KState.setCpu, hv, hn]
  · simpa [KState.setCpu, hi] using h.boot.cpus i

theorem Ready.lcr3 (h : Ready C k s) (c : CpuIdx) (d : Nat) : Ready C k (s.lcr3 c d) :=
  ⟨h.boot.lcr3 c d, h.pages.congr ⟨rfl, rfl, rfl, rfl, rfl⟩ rfl fun _ _ => rfl, h.free⟩

theorem lapicInit_wp (h : Ready C k s) (hC : C → p.lapicaddr = 0) :
    wp (lapicInit p) (fun _ t => Ready C k t ∧ t.cpus = s.cpus) (Short C) s := by
  have h4 : (4096 : Word) = BitVec.ofNat 32 4096 := rfl
  unfold lapicInit
  simp only [wp_ite]
  refine ⟨fun hne => ?_, fun _ => (wp_pure _).mpr ⟨h, rfl⟩⟩
  have hs := mmio_size p.lapicaddr
  rw [wp_bind]
  refine (mmioMapRegion_wp p.lapicaddr 4096 h.boot ?_
    fun hc => absurd (hC hc) hne).mono (fun _ t ht => ?_) fun _ _ hR => hR
  · rw [hs]; split
    · exact Or.inl rfl
    · exact Or.inr rfl
  · obtain ⟨-, h1, h2, -, -⟩ := ht
    have hb : pgnum mmiobase = 0xEF800 := by decide
    have hpw : pgnum upages = 0xEF000 := by decide
    refine (wp_pure _).mpr ⟨⟨h1, h.pages.step h2 fun v hv => ?_, ?_⟩, h2.frame.cpus⟩
    · unfold PagesWindow; omega
    · rw [h2.frame.envFreeList]; exact h.free

theorem startAps_wp (hC : C → p.lapicaddr = 0) : ∀ {l : List CpuIdx} {s : KState}, Ready C k s →
    wp (l.forM (startAp p)) (fun _ t => Ready C k t ∧
      ∀ c, (t.cpus c).mode = if c ∈ l then .starting else (s.cpus c).mode) (Short C) s
  | [], s, h => (wp_pure _).mpr ⟨h, fun c => by simp⟩
  | a :: l, s, h => by
    show wp (startAp p a >>= fun _ => l.forM (startAp p)) _ _ s
    unfold startAp
    simp only [wp_bind, wp_modify]
    refine (lapicInit_wp (h.lcr3 a s.kernPgdir) hC).mono (fun _ t ht => ?_) fun _ _ hR => hR
    obtain ⟨h1, hcpu⟩ := ht
    have h2 : Ready C k (t.setCpu a { t.cpus a with cpuStatus := .started, mode := .starting }) :=
      h1.setCpu a (by simp) (h1.boot.cpus a).2
    refine (startAps_wp hC h2).mono (fun _ u hu => ⟨hu.1, fun c => ?_⟩) fun _ _ hR => hR
    rw [hu.2 c]
    by_cases hca : c = a
    · subst hca; simp [KState.setCpu]
    · have : (t.cpus c).mode = (s.cpus c).mode := by rw [hcpu]; rfl
      simp [KState.setCpu, hca, this]

set_option maxRecDepth 4096 in
/-- After `env_init` all slots are free, in order. -/
theorem envList_empty (he : s.envs = emptyEnv) (hf : s.envFreeList = some 0) :
    EnvList s (List.finRange 1024) := by
  refine ⟨?_, List.nodup_finRange 1024, fun e => ?_, fun e => ?_⟩
  · have h0 : (0 : EnvIdx) = ⟨0, by omega⟩ := rfl
    rw [hf, h0]
    refine Chain.finRange _ (fun e hlt => ?_) fun e heq => ?_
    · rw [he, emptyEnv, dif_pos hlt]
    · have hlt : ¬ e.val + 1 < 1024 := by omega
      rw [he, emptyEnv, dif_neg hlt]
  · rw [he]; simp [emptyEnv]
  · rw [he]; simp [emptyEnv]

theorem Ready.mid (h : Ready C k s) (c : CpuIdx) : Mid T c ∅ s := by
  have he : ∀ e, s.envs e = emptyEnv e := fun e => by rw [h.boot.envs]
  have hd : ∀ e, (s.envs e).envPgdir = none := fun e => by rw [he]; rfl
  obtain ⟨L, hL, -⟩ := h.boot.page
  refine ⟨⟨⟨L, hL⟩, fun e i j => Or.inl ?_, ⟨fun e d hde => ?_, fun i j _ => h.boot.flags i j,
    h.pages⟩, _, envList_empty h.boot.envs h.free⟩,
    fun k _ => ⟨fun hu => absurd hu (h.boot.cpus k).1, fun _ hu => absurd hu (h.boot.cpus k).1⟩⟩
  · refine pteAt_of_no_tab ?_ j
    simp [tabFrame, pdeAt, dirFrame, hd]
  · rw [hd] at hde; cases hde

/-! ### Creating environments -/

/-- Under `C` there are `n` free pages. -/
def Room (C : Prop) (n : ℕ) (s : KState) : Prop := C → ∃ L, PageInv s L ∅ ∧ n ≤ L.length

/-- No CPU is in user mode yet, and none has a current environment. -/
def AllIdle (s : KState) : Prop := ∀ k, (s.cpus k).mode ≠ .user ∧ (s.cpus k).cpuEnv = none

theorem AllIdle.not_elsewhere (h : AllIdle s) (c : CpuIdx) (e : EnvIdx) : ¬ Elsewhere s c e :=
  fun ⟨k, _, hu, _⟩ => (h k).1 hu

theorem getPgdir_run {e : EnvIdx} {d : Nat} (hd : (s.envs e).envPgdir = some d) :
    getPgdir e s = .ok d s := by
  simp only [getPgdir, run_bind, run_get, hd, run_pure]

/-- `region_alloc` maps fresh pages from `va` up to `last`; a page takes at most two free ones. -/
theorem regionAllocLoop_wp {e : EnvIdx} {d : Nat} {last : Word} (hlast : last.toNat ≤ utop.toNat) :
    ∀ (fuel m : ℕ) {va : Word} {s : KState}, Mid T c ∅ s → AllIdle s →
      (s.envs e).envPgdir = some d → (C → last.toNat ≤ va.toNat + 4096 * m) →
      Room C (2 * m + n) s →
      wp (regionAllocLoop c e last fuel va) (fun _ t => Mid T c ∅ t ∧ PmOnly s t ∧ Room C n t)
        (Short C) s
  | 0, m, va, s, h, _, _, _, hroom =>
    (wp_pure _).mpr ⟨h, .refl s, fun hc => by
      obtain ⟨L, hL, hn⟩ := hroom hc
      exact ⟨L, hL, by omega⟩⟩
  | fuel + 1, m, va, s, h, hidle, hd, hC, hroom => by
    have hutop : utop.toNat = 955 * 4194304 := by decide
    unfold regionAllocLoop
    simp only [wp_ite]
    refine ⟨fun hlt => ?_, fun _ => (wp_pure _).mpr ⟨h, .refl s, fun hc => ?_⟩⟩
    swap
    · obtain ⟨L, hL, hn⟩ := hroom hc
      exact ⟨L, hL, by omega⟩
    rw [BitVec.lt_def] at hlt
    have hi : pdx va < utopPdx := by
      rw [pdx_lt_utopPdx, BitVec.lt_def]; omega
    rw [wp_bind]
    rcases h.pageAlloc false with ⟨hnil, hrun⟩ | ⟨f, s1, hrun, h1, o1, -, hM, hr0, -, -, -, L, hL, hL1⟩
    · rw [wp_ok hrun]
      simp only [wp_throw, short_panic]
      intro hc
      obtain ⟨L, hL, hn⟩ := hroom hc
      have := hC hc
      have hlen : L.length = 0 := by rw [hL.unique hnil]; rfl
      omega
    rw [wp_ok hrun]
    simp only [wp_bind]
    have hd1 : (s1.envs e).envPgdir = some d := by rw [o1.envs]; exact hd
    rw [wp_ok (getPgdir_run hd1)]
    have hmem : f ∈ ({f} : Finset Nat) := Finset.mem_singleton_self f
    have hperm : (pteW ||| pteU) &&& ~~~pteSyscall = 0 := by decide
    have hidle1 : AllIdle s1 := fun k => by rw [o1.cpus]; exact hidle k
    rcases h1.pageInsert hd1 hi hM
      (fun L' hL' hf => ((hL'.counted.free_iff f hM).mp hf).2 hmem)
      (hL1.notTable_of_held hmem) hperm (Or.inl (by rw [hr0]; decide))
      (fun _ hE => absurd hE (hidle1.not_elsewhere c e)) with ⟨hnil, hins⟩ | ⟨s2, hins, h2, hmap⟩
    · rw [wp_ok hins]
      simp only [wp_throw, short_panic]
      intro hc
      obtain ⟨L', hL', hn⟩ := hroom hc
      have := hC hc
      rw [hL'.unique hL, List.length_cons, hL1.unique hnil, List.length_nil] at hn
      omega
    rw [wp_ok hins]
    rw [Finset.erase_singleton] at h2
    have o2 := o1.trans hmap.edit.only
    have hva : (va + BitVec.ofNat 32 pgsize).toNat = va.toNat + 4096 := by
      have : (BitVec.ofNat 32 pgsize).toNat = 4096 := by decide
      rw [BitVec.toNat_add, this, Nat.mod_eq_of_lt (by omega)]
    refine (regionAllocLoop_wp (m := m - 1) hlast fuel h2 (fun k => by rw [o2.cpus]; exact hidle k)
      (by rw [o2.envs]; exact hd) (fun hc => ?_) fun hc => ?_).mono
      (fun _ t ht => ⟨ht.1, o2.trans ht.2.1, ht.2.2⟩) fun _ _ hR => hR
    · have := hC hc
      rw [hva]
      omega
    · obtain ⟨L', hL', hn⟩ := hroom hc
      have := hC hc
      have hlt1 := hL1.lt_window hM
      obtain ⟨L2, hL2, hlen⟩ := hmap.inv (entryFrame_insert (by omega) (by decide))
        (Or.inl (by rw [hr0]; decide))
      rw [Finset.erase_singleton] at hL2
      have hl := hlen L hL1
      rw [hL'.unique hL, List.length_cons] at hn
      exact ⟨L2, hL2, by omega⟩

/-- The state of an environment's slot that was just created, with entry point `eip`. -/
structure BootEnv (e : EnvIdx) (v : Env) : Prop where
  envId : v.envId = 4096 ||| BitVec.ofNat 32 e.val
  parent : v.envParentId = 0
  status : v.envStatus = .runnable
  recving : v.envIpcRecving = false
  upcall : v.envPgfaultUpcall = 0
  cpunum : v.envCpunum = 0

/-- The kernel after `m` environments were created, with the processors as in `cs`. -/
structure Loaded (T C : Prop) (c : CpuIdx) (cs : CpuIdx → CpuInfo) (n m : ℕ) (s : KState) :
    Prop where
  mid : Mid T c ∅ s
  cpus : s.cpus = cs
  idle : AllIdle s
  room : Room C n s
  envs : ∀ e : EnvIdx, if e.val < m then BootEnv e (s.envs e) else s.envs e = emptyEnv e
  head : s.envFreeList = if h : m < 1024 then some ⟨m, h⟩ else none

/-- An image that needs nothing but a stack. -/
def Plain (b : UserImage) : Prop := b.magicOk = true ∧ b.eEntry ≠ 0 ∧ b.phdrs = []

theorem roundup_le_utop {a : Word} (h : a.toNat ≤ utop.toNat) :
    (roundup a).toNat ≤ utop.toNat := by
  have hutop : utop.toNat = 4005560320 := by decide
  rw [roundup_toNat (by omega)]
  omega

theorem fileBytes_length (file : Nat → Byte) (off n : Nat) : (fileBytes file off n).length = n := by
  simp [fileBytes]

/-- Loading a program segment, which lies in user memory. -/
theorem loadSegment_wp {e : EnvIdx} {file : Nat → Byte} {ph : Proghdr} (hnC : ¬ C)
    (h : Mid T c ∅ s) (hidle : AllIdle s) (hd : (s.envs e).envPgdir = some (s.cr3 c))
    (hin : ph.pType = elfProgLoad → ph.pVa.toNat + ph.pMemsz.toNat ≤ utop.toNat) :
    wp (loadSegment c e file ph) (fun _ t => Mid T c ∅ t ∧ PmOnly s t) (Short C) s := by
  have hutop : utop.toNat = 4005560320 := by decide
  have hpanic : ∀ u, Short C .panic u := fun u => by simpa using hnC
  unfold loadSegment
  simp only [wp_ite, wp_pure]
  refine ⟨fun hload => ⟨fun _ => by rw [wp_bind, wp_throw]; exact hpanic s, fun hsz => ?_⟩,
    fun _ => ⟨h, .refl s⟩⟩
  have hle := hin hload
  rw [BitVec.lt_def] at hsz
  have hend : (ph.pVa + ph.pMemsz).toNat = ph.pVa.toNat + ph.pMemsz.toNat := by
    rw [BitVec.toNat_add, Nat.mod_eq_of_lt (by omega)]
  have hmid : (ph.pVa + ph.pFilesz).toNat = ph.pVa.toNat + ph.pFilesz.toNat := by
    rw [BitVec.toNat_add, Nat.mod_eq_of_lt (by omega)]
  have hrest : (ph.pMemsz - ph.pFilesz).toNat = ph.pMemsz.toNat - ph.pFilesz.toNat := by
    have := ph.pMemsz.isLt
    have := ph.pFilesz.isLt
    rw [BitVec.toNat_sub]
    omega
  rw [wp_bind]
  unfold regionAlloc
  refine (regionAllocLoop_wp (n := 0) (m := 0) (roundup_le_utop (by rw [hend]; exact hle)) _ h hidle
    hd (fun hc => absurd hc hnC) fun hc => absurd hc hnC).mono (fun _ s1 h1 => ?_) fun _ _ hR => hR
  have hd1 : (s1.envs e).envPgdir = some (s1.cr3 c) := by rw [h1.2.1.envs, h1.2.1.cr3]; exact hd
  rw [wp_bind]
  refine (storeBytes_mid hpanic h1.1 hd1 (by rw [fileBytes_length]; omega)).mono
    (fun _ s2 h2 => ?_) fun _ _ hR => hR
  have hd2 : (s2.envs e).envPgdir = some (s2.cr3 c) := by
    rw [h2.2.1.envs, h2.2.1.cr3]
    exact hd1
  exact (storeBytes_mid hpanic h2.1 hd2 (by rw [List.length_replicate, hmid, hrest]; omega)).mono
    (fun _ t ht => ⟨ht.1, (h1.2.1.trans h2.2.1).trans ht.2.1⟩) fun _ _ hR => hR

/-- `load_icode` changes the entry point and the memory of `e`; it takes two pages for the stack. -/
theorem loadIcode_wp {e : EnvIdx} {d : Nat} {binary : UserImage} (hC : C → Plain binary)
    (h : Mid T c ∅ s) (hidle : AllIdle s) (hd : (s.envs e).envPgdir = some d)
    (hroom : Room C (n + 2) s) :
    wp (loadIcode c e binary) (fun _ t => Mid T c ∅ t ∧ Room C n t ∧ t.cpus = s.cpus ∧
      t.envFreeList = s.envFreeList ∧ t.envs = Function.update s.envs e { s.envs e with
        envTf := { (s.envs e).envTf with tfEip := binary.eEntry } }) (Short C) s := by
  have hst : (ustacktop - BitVec.ofNat 32 pgsize + BitVec.ofNat 32 pgsize : Word) = ustacktop := by
    decide
  have hst1 : (rounddown (ustacktop - BitVec.ofNat 32 pgsize)).toNat + 4096 * 1
      = ustacktop.toNat := by decide
  have hst2 : roundup ustacktop = ustacktop := by decide
  have hst3 : ustacktop.toNat ≤ utop.toNat := by decide
  unfold loadIcode
  simp only [wp_ite, wp_bind, wp_throw, wp_modify, short_panic]
  refine ⟨fun hm hc => ?_, fun _ => ⟨fun hen hc => absurd hen (hC hc).2.1, fun _ => ?_⟩⟩
  · have := (hC hc).1
    rw [hm] at this
    cases this
  set s1 := s.setEnv e { s.envs e with
    envTf := { (s.envs e).envTf with tfEip := binary.eEntry } } with hs1
  have h1 : Mid T c ∅ s1 := h.setEnv rfl rfl Iff.rfl
  have hd1 : (s1.envs e).envPgdir = some d := by simp [hs1, KState.setEnv, hd]
  rw [wp_ok (getPgdir_run hd1)]
  set s2 := s1.lcr3 c d with hs2
  have h2 : Mid T c ∅ s2 := h1.lcr3 d
  have hcr : s2.cr3 c = d := Function.update_self ..
  have hd2 : (s2.envs e).envPgdir = some (s2.cr3 c) := by rw [hcr]; exact hd1
  have hidle2 : AllIdle s2 := hidle
  have hroom2 : Room C (n + 2) s2 := fun hc => by
    obtain ⟨L, hL, hn⟩ := hroom hc
    have hpd : ∀ x, (s2.envs x).envPgdir = (s.envs x).envPgdir := by
      intro x
      by_cases hx : x = e
      · subst hx; simp [hs2, hs1, KState.lcr3, KState.setEnv]
      · simp [hs2, hs1, KState.lcr3, KState.setEnv, hx]
    exact ⟨L, pageInv_congr hL rfl hpd rfl rfl ⟨rfl, rfl, rfl, rfl, rfl⟩, hn⟩
  -- the program segments
  have hseg : wp (binary.phdrs.forM (loadSegment c e binary.file))
      (fun _ t => Mid T c ∅ t ∧ PmOnly s2 t ∧ Room C (n + 2) t) (Short C) s2 := by
    by_cases hc : C
    · rw [(hC hc).2.2]
      exact (wp_pure _).mpr ⟨h2, .refl s2, hroom2⟩
    · refine (wp.forM (I := fun l t => Mid T c ∅ t ∧ PmOnly s2 t ∧ l ⊆ binary.phdrs)
        (fun ph l t ht => ?_) ⟨h2, .refl s2, fun _ hx => hx⟩).mono
        (fun _ t ht => ⟨ht.1, ht.2.1, fun hc' => absurd hc' hc⟩) fun _ _ hR => hR
      obtain ⟨ht1, ht2, ht3⟩ := ht
      refine (loadSegment_wp hc ht1 (fun k => by rw [ht2.cpus]; exact hidle2 k)
        (by rw [ht2.envs, ht2.cr3]; exact hd2)
        (binary.user ph (ht3 (List.mem_cons_self ..)))).mono
        (fun _ u hu => ⟨hu.1, ht2.trans hu.2, fun x hx => ht3 (List.mem_cons_of_mem ph hx)⟩)
        fun _ _ hR => hR
  refine hseg.mono (fun _ s3 h3 => ?_) fun _ _ hR => hR
  obtain ⟨h3, o3, hroom3⟩ := h3
  unfold regionAlloc
  rw [hst, hst2]
  refine (regionAllocLoop_wp (n := n) (m := 1) hst3 _ h3 (fun k => by rw [o3.cpus]; exact hidle2 k)
    (by rw [o3.envs]; exact hd2) (fun _ => hst1.ge) (fun hc => by
      obtain ⟨L, hL, hn⟩ := hroom3 hc
      exact ⟨L, hL, by omega⟩)).mono (fun _ t ht => ?_) fun _ _ hR => hR
  obtain ⟨ht1, ht2, ht3⟩ := ht
  have ho := o3.trans ht2
  exact ⟨ht1, ht3, ho.cpus, ho.envFreeList, ho.envs⟩

theorem envCreate_wp {m : ℕ} {cs : CpuIdx → CpuInfo} {binary : UserImage} (hC : C → Plain binary ∧ m < 1024)
    (h : Loaded T C c cs (n + 3) m s) :
    wp (envCreate c binary) (fun _ t => Loaded T C c cs n (m + 1) t) (Short C) s := by
  unfold envCreate
  rw [wp_bind]
  rcases h.mid.envAlloc 0 with ⟨hwhy, err, hrun⟩ | ⟨e, p, s1, hrun, h1, hcr, -, L, hL, hL1⟩
  · rw [wp_ok hrun]
    simp only [wp_throw, short_panic]
    intro hc
    obtain ⟨L, hL, hn⟩ := h.room hc
    rcases hwhy with hf | hnil
    · rw [h.head, dif_pos (hC hc).2] at hf
      cases hf
    · have : L.length = 0 := by rw [hL.unique hnil]; rfl
      omega
  rw [wp_ok hrun]
  have hhead := hcr.head
  rw [h.head] at hhead
  have hm : m < 1024 := by
    by_contra hn
    rw [dif_neg hn] at hhead
    cases hhead
  rw [dif_pos hm] at hhead
  obtain rfl := Option.some.inj hhead
  have hempty : s.envs ⟨m, hm⟩ = emptyEnv ⟨m, hm⟩ := by
    have := h.envs ⟨m, hm⟩
    rwa [if_neg (lt_irrefl m)] at this
  have he1 : s1.envs ⟨m, hm⟩ = newEnv s ⟨m, hm⟩ 0 p := by rw [hcr.envs, Function.update_self]
  have hd1 : (s1.envs ⟨m, hm⟩).envPgdir = some p := by rw [he1]; rfl
  have hroom1 : Room C (n + 2) s1 := fun hc => by
    obtain ⟨L', hL', hn⟩ := h.room hc
    rw [hL'.unique hL, List.length_cons] at hn
    exact ⟨L, hL1, by omega⟩
  refine (loadIcode_wp (fun hc => (hC hc).1) h1 (fun k => by rw [hcr.cpus]; exact h.idle k) hd1
    hroom1).mono (fun _ t ht => ?_) fun _ _ hR => hR
  obtain ⟨ht1, ht2, ht3, ht4, ht5⟩ := ht
  refine ⟨ht1, by rw [ht3, hcr.cpus]; exact h.cpus,
    fun k => by rw [ht3, hcr.cpus]; exact h.idle k, ht2, fun e => ?_, ?_⟩
  · by_cases hx : e = ⟨m, hm⟩
    · subst hx
      have hid : nextGeneration 0 = 4096 := by decide
      rw [if_pos (Nat.lt_succ_self m), ht5, Function.update_self, he1, newEnv, hempty]
      exact ⟨congrArg (· ||| BitVec.ofNat 32 m) hid, rfl, rfl, rfl, rfl, rfl⟩
    · have hne : e.val ≠ m := fun hv => hx (Fin.ext hv)
      have := h.envs e
      rw [ht5, Function.update_of_ne hx, hcr.envs, Function.update_of_ne hx]
      by_cases hlt : e.val < m
      · rw [if_pos hlt] at this
        rw [if_pos (by omega)]
        exact this
      · rw [if_neg hlt] at this
        rw [if_neg (by omega)]
        exact this
  · rw [ht4, hcr.envFreeList, hempty]
    rfl

/-! ### `i386_init` -/

/-- What a machine needs for boot to succeed with `n` free pages to spare. -/
structure Fits (p : BootParams) (n : ℕ) : Prop where
  memory : 8192 ≤ detectMemory p ∧ detectMemory p ≤ 65536
  lapic : p.lapicaddr = 0
  images : p.images ≠ [] ∧ ∀ b ∈ p.images, Plain b
  room : 3 * p.images.length + n ≤ 1024

/-- The state in which the boot processor leaves the kernel: it runs the first environment, and
    the other processors wait to enter the scheduler. -/
structure Booted (p : BootParams) (s : KState) : Prop where
  inv : Inv True s
  bsp : (s.cpus p.bsp).mode = .user ∧ s.curenv p.bsp = some 0
  others : ∀ k, k ≠ p.bsp → (s.cpus k).mode ≠ .user ∧ s.curenv k = none ∧
    (k.val < p.ncpu → (s.cpus k).mode = .starting)
  some_image : p.images ≠ []
  first : ∃ v, BootEnv 0 v ∧ s.envs 0 =
    { v with envStatus := .running, envRuns := v.envRuns + 1, envCpunum := p.bsp }
  envs : ∀ e : EnvIdx, e ≠ 0 →
    if e.val < p.images.length then BootEnv e (s.envs e) else s.envs e = emptyEnv e
  head : s.envFreeList = if h : p.images.length < 1024 then some ⟨p.images.length, h⟩ else none

theorem envsCreate_wp {cs : CpuIdx → CpuInfo} :
    ∀ {l : List UserImage} {m : ℕ} {s : KState}, (C → ∀ b ∈ l, Plain b) → (C → m + l.length ≤ 1024) →
      Loaded T C c cs (3 * l.length + n) m s →
      wp (l.forM (envCreate c)) (fun _ t => Loaded T C c cs n (m + l.length) t) (Short C) s
  | [], m, s, _, _, h => (wp_pure _).mpr (by simpa using h)
  | b :: l, m, s, hpl, hlen, h => by
    show wp (envCreate c b >>= fun _ => l.forM (envCreate c)) _ _ s
    rw [wp_bind]
    have hn : 3 * (b :: l).length + n = (3 * l.length + n) + 3 := by
      rw [List.length_cons]; omega
    rw [hn] at h
    refine (envCreate_wp (fun hc => ⟨hpl hc b (List.mem_cons_self ..), ?_⟩) h).mono
      (fun _ t ht => ?_) fun _ _ hR => hR
    · have := hlen hc
      rw [List.length_cons] at this
      omega
    have hm : m + (b :: l).length = m + 1 + l.length := by rw [List.length_cons]; omega
    rw [hm]
    refine envsCreate_wp (fun hc x hx => hpl hc x (List.mem_cons_of_mem b hx)) (fun hc => ?_) ht
    have := hlen hc
    rw [List.length_cons] at this
    omega

theorem schedPick_first (h : (s.envs 0).envStatus = .runnable) : schedPick s 0 = some 0 := by
  have : List.range nenv = 0 :: (List.range 1023).map (· + 1) := by
    rw [show nenv = 1023 + 1 from rfl, List.range_succ_eq_map]
  unfold schedPick
  rw [this, List.map_cons]
  exact List.find?_cons_of_pos (by simpa using h)

/-- The first environment is picked, and nothing else changes. -/
theorem Booted.of_loaded {cs : CpuIdx → CpuInfo} (hl : Loaded True C p.bsp cs n p.images.length s)
    (ho : ∀ k : CpuIdx, k ≠ p.bsp → k.val < p.ncpu → (cs k).mode = .starting)
    (hy : Yields p.bsp s t) : Booted p t ∧ Room C n t := by
  have hidle := hl.idle
  have hcur : s.curenv p.bsp = none := (hidle p.bsp).2
  have hbegin : schedBegin s p.bsp = 0 := by simp [schedBegin, hcur]
  have hpre : preempt p.bsp s = s := by simp [preempt, hcur]
  have hsome : p.images ≠ [] := by
    intro hnil
    have hall : ∀ e, s.envs e = emptyEnv e := fun e => by
      have := hl.envs e
      rwa [hnil, List.length_nil, if_neg (Nat.not_lt_zero _)] at this
    cases hy with
    | pick hp _ =>
      have := List.find?_some hp
      simp only [hall, emptyEnv, decide_eq_true_eq] at this
      cases this
    | stay _ hc _ _ => rw [hcur] at hc; cases hc
    | halt _ _ hb =>
      obtain ⟨e, he⟩ := hb
      rw [hall] at he
      cases he
  have hlen : 0 < p.images.length := List.length_pos_of_ne_nil hsome
  have h0 : BootEnv 0 (s.envs 0) := by
    have := hl.envs 0
    rwa [if_pos (show (0 : EnvIdx).val < _ from hlen)] at this
  have hruns : Runs p.bsp 0 s t := by
    have hpick := schedPick_first h0.status
    cases hy with
    | pick hp hr =>
      rw [hbegin, hpick] at hp
      cases hp
      exact hr
    | stay hp _ _ _ => rw [hbegin, hpick] at hp; cases hp
    | halt hp _ _ => rw [hbegin, hpick] at hp; cases hp
  have hinv := hl.mid.runs hruns
  obtain ⟨pd, hpd, rfl⟩ := hruns
  rw [hpre] at hinv ⊢
  have hcpus := resume_cpus (c := p.bsp) (e := 0) (d := pd) (s := s)
  have henvs := fun x => resume_envs (c := p.bsp) (e := 0) (d := pd) (s := s) x
  refine ⟨⟨hinv, ⟨?_, ?_⟩, fun k hk => ⟨?_, ?_, fun hlt => ?_⟩, hsome, ⟨s.envs 0, h0, ?_⟩,
    fun e he => ?_, hl.head⟩, fun hc => ?_⟩
  · simp [hcpus]
  · simp [KState.curenv, hcpus]
  · simpa [hcpus, hk] using (hidle k).1
  · simpa [KState.curenv, hcpus, hk] using (hidle k).2
  · simpa [hcpus, hk, hl.cpus] using ho k hk hlt
  · rw [henvs, if_pos rfl]
  · rw [henvs, if_neg he]
    exact hl.envs e
  · obtain ⟨L, hL, hn⟩ := hl.room hc
    refine ⟨L, pageInv_congr hL rfl (fun x => ?_) rfl rfl ⟨rfl, rfl, rfl, rfl, rfl⟩, hn⟩
    rw [henvs]
    split
    · rename_i hx; rw [hx]
    · rfl

/-- With an image, `sched_yield` finds an environment to run. -/
theorem Loaded.yields_leaves {cs : CpuIdx → CpuInfo}
    (hl : Loaded T C c cs n p.images.length s) (himg : C → p.images ≠ []) :
    wp (schedYield c) (fun _ _ => True) (fun x _ => C → x = .leave) s := by
  by_cases hc : C
  · have h0 : BootEnv 0 (s.envs 0) := by
      have := hl.envs 0
      rwa [if_pos (show (0 : EnvIdx).val < _ from List.length_pos_of_ne_nil (himg hc))] at this
    obtain ⟨Le, hLe⟩ := hl.mid.core.envs
    have hbegin : schedBegin s c = 0 := by
      have hcur : s.curenv c = none := (hl.idle c).2
      simp [schedBegin, hcur]
    cases hd : (s.envs 0).envPgdir with
    | none =>
      have := (hLe.dir 0).mp hd
      rw [h0.status] at this
      cases this
    | some pd =>
      have hrun := schedYield_run (.pick (by rw [hbegin]; exact schedPick_first h0.status)
        ⟨pd, hd, rfl⟩)
      exact (wp_error hrun).mpr fun _ => rfl
  · refine (schedYield_wp (Q := fun _ _ => True) (R := fun _ => True) fun _ _ => trivial).mono
      (fun _ _ _ => trivial) fun _ _ _ hc' => absurd hc' hc

theorem Ready.loaded (h : Ready C 1024 s) (hn : C → n ≤ 1024) (c : CpuIdx) :
    Loaded T C c s.cpus n 0 s := by
  refine ⟨h.mid c, rfl, h.boot.cpus, fun hc => ?_, fun e => ?_, h.free⟩
  · obtain ⟨L, hL, hroom⟩ := h.boot.page
    have := hroom hc
    have := hn hc
    exact ⟨L, hL, by omega⟩
  · rw [if_neg (Nat.not_lt_zero _), h.boot.envs]

/-- What boot leaves behind, and when it succeeds. -/
theorem i386Init_wp (hC : C → Fits p n) :
    wp (i386Init p) (fun _ _ => False)
      (fun x t => (x = .leave → Booted p t ∧ Room C n t) ∧ (C → x = .leave)) (startState p) := by
  have hshort : ∀ x t, Short C x t →
      (x = .leave → Booted p t ∧ Room C n t) ∧ (C → x = .leave) := by
    rintro x t ⟨rfl, hnC⟩
    exact ⟨fun h => (by cases h), fun hc => absurd hc hnC⟩
  unfold i386Init
  rw [wp_bind]
  by_cases hw : 65536 < detectMemory p
  · have hnC : ¬ C := fun hc => absurd (hC hc).memory.2 (by omega)
    refine (memInit_high hw).mono (fun _ _ h => h.elim) fun x t h => hshort x t ⟨h.1, hnC⟩
  refine (memInit_wp (C := C) (k := 1024) (by omega) (fun hc => (hC hc).memory.1) (le_refl _)
    (by omega)).mono (fun _ s1 h1 => ?_) hshort
  unfold envInit
  rw [wp_bind, wp_modify, wp_bind, wp_modify]
  have h2 := h1.envInit
  have h3 := h2.setCpu p.bsp (v := { s1.cpus p.bsp with cpuStatus := .started })
    (h1.boot.cpus p.bsp).1 (h1.boot.cpus p.bsp).2
  rw [wp_bind]
  refine (lapicInit_wp h3 fun hc => (hC hc).lapic).mono (fun _ s4 h4 => ?_) hshort
  rw [wp_bind]
  unfold bootAps
  refine (startAps_wp (fun hc => (hC hc).lapic) h4.1).mono (fun _ s5 h5 => ?_) hshort
  have h6 : Loaded True C p.bsp s5.cpus (3 * p.images.length + n) 0 s5 :=
    h5.1.loaded (fun hc => (hC hc).room) p.bsp
  have hstart : ∀ k : CpuIdx, k ≠ p.bsp → k.val < p.ncpu → (s5.cpus k).mode = .starting := by
    intro k hk hlt
    rw [h5.2 k, if_pos]
    simp [hk, hlt]
  rw [wp_bind]
  refine (envsCreate_wp (fun hc => (hC hc).images.2) (fun hc => by have := (hC hc).room; omega)
    h6).mono (fun _ s7 h7 => ?_) hshort
  rw [Nat.zero_add] at h7
  exact ((schedYield_wp (Q := fun _ _ => False) fun t ht => Booted.of_loaded h7 hstart ht).and
    (h7.yields_leaves fun hc => (hC hc).images.1)).mono (fun _ _ h => h.1)
    fun x t h => ⟨h.1, h.2⟩

/-- The state after boot. -/
theorem boot_booted (h : boot p = some s) : Booted p s := by
  unfold boot at h
  split at h
  · rename_i t hrun
    cases h
    exact (((i386Init_wp (C := False) (n := 0) (p := p) False.elim).error hrun).1 rfl).1
  · cases h

/-- A machine that fits boots, and has `n` free pages afterwards. -/
theorem boot_fits (h : Fits p n) :
    ∃ s L, boot p = some s ∧ Booted p s ∧ PageInv s L ∅ ∧ n ≤ L.length := by
  have hwp := i386Init_wp (C := True) (n := n) (p := p) fun _ => h
  cases hrun : i386Init p (startState p) with
  | ok a t => exact (hwp.ok hrun).elim
  | error x t =>
    obtain ⟨h1, h2⟩ := hwp.error hrun
    obtain rfl := h2 trivial
    obtain ⟨hb, hroom⟩ := h1 rfl
    obtain ⟨L, hL, hn⟩ := hroom trivial
    exact ⟨t, L, by unfold boot; rw [hrun], hb, hL, hn⟩

/-- Its memory after `mem_init` and `env_init`. -/
theorem demo_inits : ∃ u s L, envInit u = .ok () s ∧ s.envFreeList = some 0 ∧ PageInv s L ∅ ∧
    1024 ≤ L.length := by
  have hmem : 8192 ≤ detectMemory demo ∧ detectMemory demo ≤ 65536 := by decide
  have hwp : wp (memInit demo) (fun _ t => MemReady True 1024 t) (Short True) (startState demo) :=
    memInit_wp hmem.2 (fun _ => hmem.1) (le_refl _) (by omega)
  cases hrun : memInit demo (startState demo) with
  | ok a u =>
    have h := (hwp.ok hrun).envInit
    obtain ⟨L, hL, hlen⟩ := h.boot.page
    have hroom := hlen trivial
    exact ⟨u, _, L, rfl, h.free, hL, by omega⟩
  | error x t =>
    obtain ⟨-, hn⟩ := hwp.error hrun
    exact absurd trivial hn

/-- The demonstration machine boots and has more than a thousand pages to spare. -/
theorem demo_boots :
    ∃ s L, boot demo = some s ∧ Booted demo s ∧ PageInv s L ∅ ∧ 1000 ≤ L.length := by
  refine boot_fits ⟨by decide, rfl, ⟨by simp [demo], fun b hb => ?_⟩, by simp [demo]⟩
  simp only [demo, List.mem_cons, List.not_mem_nil, or_false, or_self] at hb
  subst hb
  exact ⟨rfl, by decide, rfl⟩

end

end Jos
