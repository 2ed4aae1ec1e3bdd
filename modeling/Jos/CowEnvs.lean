import Jos.CowCalls
import Jos.Failure
import Jos.Irq

/-!
  Stores, and the system calls that make, start and end an environment, as changes of the user pages
  of all environments. -/

namespace Jos

open Lib RefCount Lib.Cow

namespace CowFork

variable {D : Prop} {c : CpuIdx} {cur e x : EnvIdx} {s t u : KState} {f d : Nat} {envid : Word}
  {upcall : Word} {r : Except Err Word}

/-- A new page of contents for a frame that user code has. -/
theorem Sound.store (h : Sound D s) {p : PageNo} {a : Access} (hs : (frames s).slot e p = some (f, a))
    (v : Page) : Sound D (s.setFrame f v) ∧ (frames (s.setFrame f v)).slot = (frames s).slot := by
  obtain ⟨L, hL⟩ := h.page
  have hnt := hL.notTable_of_pte (target_of_slot hs)
  have hp := hnt.pteAt_setFrame v
  obtain ⟨hf, hu⟩ := h.few_of_pteAt hp
  have hinv := h.inv.setFrame hnt v
  refine ⟨⟨hinv, ⟨hinv.core.envs, h.exclusive.sole, h.exclusive.status,
    h.exclusive.idle⟩, h.awake, h.tables.congr (fun _ => rfl) fun y d i hd => ?_, hf, hu⟩,
    slot_of_pteAt hp⟩
  have hd' : dirFrame s (some y) = some d := hd
  rw [KState.setFrame_mem, Function.update_of_ne fun hx => hnt.not_dir _ (hx ▸ hd')]

/-! ### Records of environments -/

theorem Sound.setUpcall (h : Sound D s) (hc : OnCpu s c cur)
    (hl : lookupEnv s cur envid true = some x)
    (hrun : perform upcall c (.setUpcall envid) s = .ok r t) :
    r = .ok 0 ∧ Sound D t ∧ pteAt t = pteAt s ∧ t.mem = s.mem ∧ t.cpus = s.cpus ∧
      ∀ y, Stays s t y := by
  obtain ⟨t, hcall, rfl⟩ := perform_ok hrun
  replace hrun : sysEnvSetPgfaultUpcall c envid upcall s = .ok r t := hcall
  have ht := Fork.setUpcall_ok hc.current hl hrun
  have hr : r = .ok 0 := by
    simp only [sysEnvSetPgfaultUpcall, run_bind, envid2env_run hc.current, hl, run_modify,
      run_pure] at hrun
    cases hrun
    rfl
  subst ht
  have hpte := Fork.pteAt_setEnv (s := s) (e := x)
    (w := { s.envs x with envPgfaultUpcall := upcall }) rfl
  refine ⟨hr, h.setEnv hc rfl rfl Iff.rfl (Or.inl rfl), (pteAt_reload ..).trans hpte, rfl, rfl,
    fun y => ?_⟩
  rcases eq_or_ne y x with rfl | hne
  · refine ⟨?_, ?_, ?_, ?_, ?_⟩ <;> simp only [reload_envs, KState.setEnv, Function.update_self]
  · exact .of_eq (setEnv_envs_of_ne hne)

theorem Sound.setRunnable (h : Sound D s) (hc : OnCpu s c cur)
    (hl : lookupEnv s cur envid true = some x) (hst : (s.envs x).envStatus = .notRunnable)
    (hrun : perform upcall c (.setRunnable envid) s = .ok r t) :
    r = .ok 0 ∧ Sound D t ∧ pteAt t = pteAt s ∧ t.mem = s.mem ∧ (∀ y, y ≠ x → t.envs y = s.envs y) ∧
      (t.envs x).envStatus = .runnable := by
  obtain ⟨t, hcall, rfl⟩ := perform_ok hrun
  replace hrun : sysEnvSetStatus c envid 2 s = .ok r t := hcall
  have ht := Fork.setRunnable_ok hc.current hl hrun
  have hr : r = .ok 0 := by
    simp only [sysEnvSetStatus, show statusOfWord 2 = some .runnable by decide, run_bind,
      envid2env_run hc.current, hl, run_modify, run_pure] at hrun
    cases hrun
    rfl
  subst ht
  have hpte := Fork.pteAt_setEnv (s := s) (e := x)
    (w := { s.envs x with envStatus := .runnable }) rfl
  refine ⟨hr, h.setEnv hc rfl rfl ?_ (Or.inr (by rw [hst]; simp)), (pteAt_reload ..).trans hpte,
    rfl, fun y hy => setEnv_envs_of_ne hy, ?_⟩
  · simp [hst]
  · simp only [reload_envs, KState.setEnv, Function.update_self]

/-! ### Giving the CPU away -/

theorem stays_of_yields (h : Yields c s t) (y : EnvIdx) : Stays s t y := by
  have hr := (h.rescheduled y).rest
  have hst : ∀ st : EnvStatus, st ≠ .runnable → st ≠ .running →
      ((t.envs y).envStatus = st ↔ (s.envs y).envStatus = st) := by
    intro st h1 h2
    have hno : ∀ v : Env, Eligible v → v.envStatus ≠ st := by
      rintro v (hv | hv) rfl
      · exact h1 hv
      · exact h2 hv
    rcases h.status y with hx | ⟨hx, hy⟩
    · rw [hx]
    · exact ⟨fun hz => absurd hz (hno _ hy), fun hz => absurd hz (hno _ hx)⟩
  exact ⟨by rw [hr], by rw [hr], by rw [hr], hst _ (by simp) (by simp), hst _ (by simp) (by simp)⟩

/-- What the CPUs run is still marked as running. -/
theorem awake_of_yields (h : ∀ k e, k ≠ c → (s.cpus k).mode = .user → s.curenv k = some e →
    (s.envs e).envStatus = .running) (hown : Own c s) (hy : Yields c s t) : Awake t := by
  have hruns : ∀ {e}, Runs c e s t → Awake t := by
    rintro e ⟨pd, -, rfl⟩ k y hm hc
    rw [resume_envs]
    split
    · rfl
    · rename_i hne
      by_cases hk : k = c
      · subst hk
        rw [KState.curenv, resume_cpus, Function.update_self] at hc
        exact absurd (Option.some.inj hc).symm hne
      · rw [KState.curenv, resume_cpus, Function.update_of_ne hk, preempt_cpus] at hc
        rw [resume_cpus, Function.update_of_ne hk, preempt_cpus] at hm
        rw [preempt_envs, if_neg fun hx => hown y hx.1 ⟨k, hk, hm, hc⟩]
        exact h k y hk hm hc
  cases hy with
  | pick _ hr => exact hruns hr
  | stay _ _ _ hr => exact hruns hr
  | halt _ _ _ =>
    intro k y hm hc
    by_cases hk : k = c
    · subst hk
      rw [halted_cpus, Function.update_self] at hm
      cases hm
    · rw [KState.curenv, halted_cpus, Function.update_of_ne hk] at hc
      rw [halted_cpus, Function.update_of_ne hk] at hm
      exact h k y hk hm hc

theorem Sound.yield (h : Sound D s) (hy : Yields c s t) : Sound D t := by
  obtain ⟨hex, hown⟩ := h.exclusive.enter c
  obtain ⟨hf, hu⟩ := h.few_of_pteAt hy.pteAt
  exact ⟨(h.inv.mid c).yields hy, hex.yields hy hown,
    awake_of_yields (fun k e _ => h.awake k e) hown hy,
    h.tables.congr (fun y => (stays_of_yields hy y).dir) fun _ _ _ _ => by rw [hy.mem], hf, hu⟩

/-! ### Making an environment -/

/-- `sys_exofork` made the environment `x`. -/
structure Born (s t : KState) (cur x : EnvIdx) (id : Word) : Prop where
  index : envx id = x
  child : ∃ d, Fork.Child cur x d id t
  before : (s.envs x).envStatus = .free
  status : (t.envs x).envStatus = .notRunnable
  empty : ∀ p, (frames t).slot x p = none
  slot : ∀ y, y ≠ x → ∀ p, (frames t).slot y p = (frames s).slot y p
  data : ∀ f, (frames t).Mapped f → t.mem f = s.mem f
  envs : ∀ y, y ≠ x → t.envs y = s.envs y

theorem Sound.exofork (h : Sound D s) (hc : OnCpu s c cur) (hmem : PagesFree s 1)
    (hfree : s.envFreeList ≠ none) (hrun : perform upcall c .exofork s = .ok r t) :
    ∃ x id, r = .ok id ∧ id.slt 0 = false ∧ id ≠ 0 ∧ Sound D t ∧ Born s t cur x id := by
  obtain ⟨u, hcall, rfl⟩ := perform_ok hrun
  replace hrun : sysExofork c s = .ok r u := hcall
  obtain ⟨L0, hL0⟩ := h.page
  obtain ⟨Le, hLe⟩ := h.inv.core.envs
  have hlive : (s.envs cur).envStatus ≠ .free := by rw [h.running hc]; simp
  have hok := Fork.sysExofork_ok (h.parent hc) hLe hlive hrun
  rcases (h.inv.mid c).envAlloc (s.envs cur).envId with
    ⟨hno, -⟩ | ⟨x, p, m, hr, hm, hcr, hbefore, -⟩
  · rcases hno with hno | hno
    · exact absurd hno hfree
    · exact absurd (hmem.length hno) (by decide)
  have hx : m.envs x = newEnv s x (s.envs cur).envId p := by rw [hcr.envs, Function.update_self]
  have hmx : ∀ y, y ≠ x → m.envs y = s.envs y := fun y hy => by
    rw [hcr.envs, Function.update_of_ne hy]
  simp only [sysExofork, run_bind, getCurenv_run hc.current, run_get, hr, run_modify, run_pure]
    at hrun
  cases hrun
  set v : Env := { m.envs x with
    envStatus := .notRunnable, envTf := (m.envs cur).envTf.withEax 0 } with hv
  set u := m.setEnv x v with hu
  have htx : u.envs x = v := by rw [hu]; simp [KState.setEnv]
  have hty : ∀ y, y ≠ x → u.envs y = s.envs y := fun y hy => by
    rw [hu, setEnv_envs_of_ne hy, hmx y hy]
  have hid : (u.envs x).envId = nextGeneration (s.envs x).envId ||| BitVec.ofNat 32 x.val := by
    rw [htx, hv, hx]
    rfl
  have hne0 : (u.envs x).envId ≠ 0 := hid ▸ nextGeneration_ne_zero _ _
  have hix : envx (u.envs x).envId = x := hid ▸ envx_nextGeneration _ _
  have hmid : Mid True c ∅ u := hm.setEnv rfl rfl (by rw [hv, hx]; simp [newEnv])
  have hpte : pteAt u = pteAt m := Fork.pteAt_setEnv rfl
  have hptx : ∀ i j, pteAt u (some x) i j = 0 := fun i j => by
    rw [hpte]
    exact pteAt_of_no_tab (hcr.noTab i) j
  have hpty : ∀ y, y ≠ x → ∀ i j, pteAt u (some y) i j = pteAt s (some y) i j := fun y hy i j => by
    rw [hpte, (hcr.tables (some y) (by simpa using hy)).2.1]
  have hslotx : ∀ q, (frames u).slot x q = none := fun q => by
    simp only [frames, hptx]
    rfl
  have hsloty : ∀ y, y ≠ x → ∀ q, (frames u).slot y q = (frames s).slot y q := fun y hy q => by
    simp only [frames, hpty y hy]
  have htables : TablesOpen u := by
    intro y d' i hd' hi hp
    have hmem' : u.mem = m.mem := rfl
    rcases eq_or_ne y x with rfl | hy
    · have htab := tabFrame_of_dir (o := some y) hd' hi
      rw [show tabFrame u (some y) i = tabFrame m (some y) i from
        congrFun (congrFun (tables_congr hmem' (Fork.setEnv_dir rfl) rfl).1 _) _, hcr.noTab] at htab
      exact absurd (entryFrame_eq_none.mp htab.symm) hp
    · rw [hty y hy] at hd'
      have hkeep := (hcr.tables (some y) (by simpa using hy)).2.2 d' hd'
      rw [hmem', hkeep] at hp ⊢
      exact h.tables y d' i hd' hi hp
  have hsound := h.of_mid hc hmid hcr.cpus hcr.cr3 (fun y hy => by
      have hyx : y ≠ x := by
        rintro rfl
        rw [hbefore] at hy
        cases hy
      rw [hty y hyx]
      exact ⟨hy, rfl⟩) htables (fun hD f => by
      obtain ⟨V, hV, hin⟩ := h.few hD f
      refine ⟨V, hV, fun y i j hy => ?_⟩
      rcases eq_or_ne y x with rfl | hyx
      · simp only [target, hptx, entryFrame_zero] at hy
        cases hy
      · simp only [target, hpty y hyx] at hy
        exact hin y i j hy) fun y i j => by
      rcases eq_or_ne y x with rfl | hyx
      · rw [hptx]
        exact plain_zero
      · rw [hpty y hyx]
        exact h.plain y i j
  obtain ⟨L, hL⟩ := hmid.core.page
  refine ⟨x, _, rfl, ?_, hne0, hsound, ⟨hix, ?_, hbefore, congrArg Env.envStatus htx, hslotx, hsloty,
    fun f hf => ?_, hty⟩⟩
  · have hmsb := nextGeneration_msb (s.envs x).envId x
    rw [← hid] at hmsb
    exact BitVec.slt_zero_eq_msb.trans hmsb
  · rcases hok with ⟨err, herr⟩ | ⟨x', d', id, hid', -, hchild, -⟩
    · cases herr
    · cases hid'
      have hch := hchild hne0
      have hlook := hch.look
      have hxx : x' = x := by
        unfold lookupEnv at hlook
        rw [if_neg hne0, hix] at hlook
        split at hlook
        · cases hlook
        · split at hlook
          · cases hlook
          · exact (Option.some.inj hlook).symm
      subst hxx
      exact ⟨d', hch.dir, hch.look, hch.ne⟩
  · obtain ⟨y, q, a, hq⟩ := hf
    have hdir : dirFrame u (some x) = some p := by
      show (u.envs x).envPgdir = some p
      rw [htx, hv, hx]
      rfl
    exact hcr.mem f fun hfp => (hL.notTable_of_pte (target_of_slot hq)).not_dir _ (hfp ▸ hdir)

/-! ### Exit -/

/-- The environment `e` is gone. -/
structure Gone (s t : KState) (e : EnvIdx) : Prop where
  status : (t.envs e).envStatus = .free
  empty : ∀ p, (frames t).slot e p = none
  slot : ∀ y, y ≠ e → ∀ p, (frames t).slot y p = (frames s).slot y p
  data : ∀ f, (frames t).Mapped f → t.mem f = s.mem f
  stays : ∀ y, y ≠ e → Stays s t y

/-- `env_destroy` of the current environment does not return. -/
theorem envDestroy_gone {L : List Nat} (hL : PageInv s L ∅) (hc : s.curenv c = some e)
    (hd : (s.envs e).envPgdir = some d) : wp (envDestroy c e) (fun _ _ => False)
      (Leaves fun t => ∃ u, EnvGone c e d s u ∧ Yields c (u.setCurenv c none) t) s := by
  unfold envDestroy
  simp only [wp_bind, wp_get, wp_ite, wp_set]
  refine ⟨fun hr => absurd hc hr.2, fun _ => ?_⟩
  obtain ⟨u, hrun, hg, -⟩ := envFree_spec c hL hd
  rw [wp_ok hrun]
  have hcu : u.curenv c = some e := by rw [KState.curenv, hg.cpus]; exact hc
  exact ⟨fun _ => schedYield_wp fun t ht => ⟨u, hg, ht⟩, fun hn => absurd hcu hn⟩

theorem Sound.exit (h : Sound D s) (hc : OnCpu s c cur)
    (hrun : sysEnvDestroy c 0 s = .error .leave t) : Sound D t ∧ Gone s t cur := by
  obtain ⟨L, hL⟩ := h.page
  obtain ⟨hex, hown⟩ := h.exclusive.enter c
  have hlive : (s.envs cur).envStatus ≠ .free := by rw [h.running hc]; simp
  have hwp := (envDestroy_cur (Q := fun _ _ => False) (h.inv.mid c) hc.current (hown _ hc.current)).and
    (envDestroy_gone hL hc.current (h.dir hc))
  have hcall : envDestroy c cur s = .error .leave t := by
    unfold sysEnvDestroy at hrun
    simp only [run_bind, envid2env_run hc.current, Fork.lookupEnv_self] at hrun
    cases hx : envDestroy c cur s with
    | ok a u =>
      rw [hx] at hrun
      cases hrun
    | error x u =>
      rw [hx] at hrun
      cases hrun
      rfl
  obtain ⟨hinv, hgone⟩ := hwp.error hcall
  have hinv := leaves_leave.mp hinv
  obtain ⟨u, hg, hy⟩ := leaves_leave.mp hgone
  have hsame : SameEnvs (freed cur s) u := ⟨hg.envs, hg.cpus, hg.envFreeList⟩
  have hptu : pteAt t = pteAt u := hy.pteAt.trans rfl
  have hmem : t.mem = u.mem := hy.mem
  have hstay : ∀ y, Stays (u.setCurenv c none) t y := stays_of_yields hy
  have hune : ∀ y, y ≠ cur → (u.setCurenv c none).envs y = s.envs y := fun y hne => by
    show u.envs y = s.envs y
    rw [hg.envs, Function.update_of_ne hne]
  have hucur : (u.envs cur).envPgdir = none ∧ (u.envs cur).envStatus = .free := by
    rw [hg.envs, Function.update_self]
    exact ⟨rfl, rfl⟩
  have hdir : ∀ y, (t.envs y).envPgdir = (u.envs y).envPgdir := fun y => (hstay y).dir
  have hptc : ∀ i j, pteAt t (some cur) i j = 0 := fun i j => by
    rw [hptu]
    exact pteAt_of_no_tab (hg.noTab i) j
  have hpty : ∀ y, y ≠ cur → ∀ i j, pteAt t (some y) i j = pteAt s (some y) i j :=
    fun y hne i j => by rw [hptu, hg.pte _ i j (by simpa using hne)]
  have hsloty : ∀ y, y ≠ cur → ∀ q, (frames t).slot y q = (frames s).slot y q := fun y hne q => by
    simp only [frames, hpty y hne]
  have hslotc : ∀ q, (frames t).slot cur q = none := fun q => by
    simp only [frames, hptc]
    rfl
  have htables : TablesOpen t := by
    intro y d i hd hi hp
    rw [hdir] at hd
    rcases eq_or_ne y cur with rfl | hne
    · rw [hucur.1] at hd
      cases hd
    · have hds : (s.envs y).envPgdir = some d := by rw [← hune y hne]; exact hd
      have hkeep := hg.pde (some y) d i (by simpa using hne) hds
      rw [hmem, hkeep] at hp ⊢
      exact h.tables y d i hds hi hp
  have hcpus : ∀ k, k ≠ c → (u.setCurenv c none).cpus k = s.cpus k := fun k hk => by
    rw [show (u.setCurenv c none).cpus k = u.cpus k from Function.update_of_ne hk _ _, hg.cpus]
  have hawake : Awake t := by
    refine awake_of_yields (fun k y hk hm hcur => ?_) (fun y hcur => ?_) hy
    · rw [hcpus k hk] at hm
      rw [KState.curenv, hcpus k hk] at hcur
      have hne : y ≠ cur := by
        rintro rfl
        exact hown y hc.current ⟨k, hk, hm, hcur⟩
      rw [hune y hne]
      exact h.awake k y hm hcur
    · simp [KState.setCurenv, KState.curenv, KState.setCpu] at hcur
  refine ⟨⟨hinv, hex.after_death hlive (hown _ hc.current) hsame hy, hawake, htables, fun hD f => ?_,
    fun y i j => ?_⟩, ⟨?_, hslotc, hsloty, fun f hf => ?_, fun y hne => ?_⟩⟩
  · obtain ⟨V, hV, hin⟩ := h.few hD f
    refine ⟨V, hV, fun y i j hx => ?_⟩
    rcases eq_or_ne y cur with rfl | hne
    · simp only [target, hptc, entryFrame_zero] at hx
      cases hx
    · simp only [target, hpty y hne] at hx
      exact hin y i j hx
  · rcases eq_or_ne y cur with rfl | hne
    · rw [hptc]
      exact plain_zero
    · rw [hpty y hne]
      exact h.plain y i j
  · exact (hstay cur).free.mpr hucur.2
  · obtain ⟨y, q, a, hq⟩ := hf
    have hne : y ≠ cur := by
      rintro rfl
      rw [hslotc] at hq
      cases hq
    rw [hsloty y hne] at hq
    rw [hmem, hg.data f (hL.notTable_of_pte (target_of_slot hq))]
  · have hst := hstay y
    have he := hune y hne
    exact ⟨hst.id.trans (by rw [he]), hst.parent.trans (by rw [he]), hst.dir.trans (by rw [he]),
      by rw [hst.free, he], by rw [hst.asleep, he]⟩

end CowFork

end Jos
