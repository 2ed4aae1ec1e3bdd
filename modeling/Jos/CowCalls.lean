import Jos.CowFork
import Jos.ForkChild
import Jos.Insert

/-!
  The system calls of `fork` and `pgfault` as changes of the user pages of all environments.

  `Sound` collects what holds of the kernel along a run. Each call keeps it, and puts one entry
  (`Puts`), makes an environment without pages, or takes one away. -/

namespace Jos

open Lib RefCount Lib.Cow

namespace CowFork

/-! ### What entries give -/

section

variable {w : Word} {s t : KState} {e : EnvIdx} {va : Word} {f : Nat} {p : PageNo} {a : Access}

theorem flag_cases (w : Word) (i : Nat) :
    w &&& BitVec.twoPow 32 i = 0 ∨ w &&& BitVec.twoPow 32 i = BitVec.twoPow 32 i := by
  rw [BitVec.and_twoPow]
  split
  · exact Or.inr rfl
  · exact Or.inl rfl

/-- Whether all flags of two are set. -/
theorem and_or_eq {a b : Word} (ha : w &&& a = 0 ∨ w &&& a = a) (hb : w &&& b = 0 ∨ w &&& b = b)
    (h : a &&& b = 0) (ha0 : a ≠ 0) (hb0 : b ≠ 0) :
    w &&& (a ||| b) = a ||| b ↔ w &&& a ≠ 0 ∧ w &&& b ≠ 0 := by
  have hor : w &&& (a ||| b) = (w &&& a) ||| (w &&& b) := BitVec.and_or_distrib_left
  constructor
  · intro he
    have hin : ∀ x, (a ||| b) &&& x = x → w &&& x = x := by
      intro x hx
      have h2 := congrArg (· &&& x) he
      simp only [BitVec.and_assoc, hx] at h2
      exact h2
    have h1 : w &&& a = a := hin a (by
      rw [BitVec.and_comm, BitVec.and_or_distrib_left, BitVec.and_self, h]
      exact BitVec.or_zero)
    have h2 : w &&& b = b := hin b (by
      rw [BitVec.and_comm, BitVec.and_or_distrib_left, BitVec.and_self, BitVec.and_comm, h]
      exact BitVec.zero_or)
    exact ⟨by rw [h1]; exact ha0, by rw [h2]; exact hb0⟩
  · rintro ⟨h1, h2⟩
    rw [hor, ha.resolve_left h1, hb.resolve_left h2]

/-- The flags of an entry do not depend on its frame. -/
theorem flags_or (f : Nat) (perm : Word) {m : Word} (hm : 0xFFF &&& m = m) :
    (page2pa f ||| perm) &&& m = perm &&& m := by
  have h0 : page2pa f &&& m = 0 := by
    rw [← hm, ← BitVec.and_assoc, page2pa_flags]
    exact BitVec.zero_and
  rw [BitVec.and_comm, BitVec.and_or_distrib_left, BitVec.and_comm m, h0, BitVec.and_comm m]
  exact BitVec.zero_or

theorem pteP_cases (w : Word) : w &&& pteP = 0 ∨ w &&& pteP = pteP := flag_cases w 0
theorem pteW_cases (w : Word) : w &&& pteW = 0 ∨ w &&& pteW = pteW := flag_cases w 1
theorem pteU_cases (w : Word) : w &&& pteU = 0 ∨ w &&& pteU = pteU := flag_cases w 2

theorem userRead_iff : w &&& userRead = userRead ↔ w &&& pteP ≠ 0 ∧ w &&& pteU ≠ 0 :=
  and_or_eq (pteP_cases w) (pteU_cases w) (by decide) (by decide) (by decide)

theorem userWrite_iff :
    w &&& userWrite = userWrite ↔ (w &&& pteP ≠ 0 ∧ w &&& pteU ≠ 0) ∧ w &&& pteW ≠ 0 := by
  constructor
  · intro h
    have hr : w &&& userRead = userRead := by
      have h1 := congrArg (· &&& userRead) h
      simpa only [BitVec.and_assoc, show userWrite &&& userRead = userRead by decide] using h1
    refine ⟨userRead_iff.mp hr, fun h0 => ?_⟩
    have h1 := congrArg (· &&& pteW) h
    simp only [BitVec.and_assoc, show userWrite &&& pteW = pteW by decide, h0] at h1
    exact absurd h1 (by decide)
  · rintro ⟨h, hw⟩
    have hor : w &&& userWrite = (w &&& userRead) ||| (w &&& pteW) := BitVec.and_or_distrib_left
    rw [hor, userRead_iff.mpr h, (pteW_cases w).resolve_left hw]
    rfl

theorem entryAccess_eq_some : entryAccess w = some (f, a) ↔ (w &&& pteP ≠ 0 ∧ w &&& pteU ≠ 0) ∧
    pgnum w = f ∧
    (if w &&& pteW ≠ 0 then Access.own else if w &&& pteCow ≠ 0 then .cow else .readOnly) = a := by
  unfold entryAccess
  split
  · rename_i h
    simp only [Option.some.injEq, Prod.mk.injEq, and_iff_right h]
  · rename_i h
    simp only [reduceCtorEq, h, false_and]

theorem entryFrame_of_access (h : entryAccess w = some (f, a)) : entryFrame w = some f := by
  obtain ⟨⟨hp, -⟩, hf, -⟩ := entryAccess_eq_some.mp h
  exact entryFrame_eq_some.mpr ⟨hp, hf⟩

theorem target_of_slot (h : (frames s).slot e p = some (f, a)) :
    target s (.pte e p.1 p.2) = some f := entryFrame_of_access h

theorem slot_pageOf : (frames s).slot e (pageOf va) = entryAccess (pteOf s e va) := rfl

theorem mappedAt_of_slot (h : (frames s).slot e (pageOf va) = some (f, a)) :
    mappedAt s e va = some f := target_of_slot h

/-- The entry that a call with the permissions `perm` makes. -/
theorem slot_of_shows {perm : Word} (h : Shows s e va f perm) (hp : permOk perm = true) :
    (frames s).slot e (pageOf va) = some (f,
      if perm &&& pteW ≠ 0 then .own else if perm &&& pteCow ≠ 0 then .cow else .readOnly) := by
  simp only [permOk, Bool.and_eq_true, decide_eq_true_eq] at hp
  have hflag : ∀ m : Word, 0xFFF &&& m = m → pteOf s e va &&& m = perm &&& m :=
    fun m hm => Fork.flags_of_shows h hm
  rw [slot_pageOf, entryAccess_eq_some, hflag pteP (by decide), hflag pteU (by decide),
    hflag pteW (by decide), hflag pteCow (by decide)]
  exact ⟨⟨hp.1.2, hp.1.1⟩, (entryFrame_eq_some.mp h.frame).2, rfl⟩

/-! ### What user code can reach -/

/-- The entry in the page table decides what a walk from the directory finds. -/
theorem TablesOpen.walk (h : TablesOpen s) {d : Nat} {need : Word}
    (hd : (s.envs e).envPgdir = some d) (hva : va < utop) (hneed : need = userRead ∨ need = userWrite) :
    (if s.mem d (pdx va) &&& need = need ∧
        s.mem (pgnum (s.mem d (pdx va))) (ptx va) &&& need = need then
      some (pgnum (s.mem (pgnum (s.mem d (pdx va))) (ptx va))) else none) =
      if pteOf s e va &&& need = need then some (pgnum (pteOf s e va)) else none := by
  have hi : pdx va < utopPdx := pdx_lt_utopPdx.mpr hva
  have htab : tabFrame s (some e) (pdx va) = entryFrame (s.mem d (pdx va)) :=
    tabFrame_of_dir (o := some e) hd hi
  have hpres : ∀ w : Word, w &&& need = need → w &&& pteP ≠ 0 := by
    intro w hw
    rcases hneed with rfl | rfl
    · exact (userRead_iff.mp hw).1
    · exact (userWrite_iff.mp hw).1.1
  by_cases hp : s.mem d (pdx va) &&& pteP = 0
  · rw [entryFrame_eq_none.mpr hp] at htab
    have h0 : pteOf s e va = 0 := pteAt_of_no_tab htab _
    have h1 : ¬ (0 : Word) &&& need = need := fun hx => hpres 0 hx (by decide)
    have h2 : ¬ s.mem d (pdx va) &&& need = need := fun hx => hpres _ hx hp
    simp only [h2, false_and, if_false, h0, if_neg h1]
  · rw [entryFrame_of_present hp] at htab
    have hpte : pteOf s e va = s.mem (pgnum (s.mem d (pdx va))) (ptx va) := pteAt_of_tab htab _
    have hopen := h e _ _ hd hi hp
    have hneed' : s.mem d (pdx va) &&& need = need := by
      rcases hneed with rfl | rfl
      · exact userRead_iff.mpr (userWrite_iff.mp hopen).1
      · exact hopen
    simp only [hneed', true_and, ← hpte]

theorem TablesOpen.reads (h : TablesOpen s) {d : Nat} (hd : (s.envs e).envPgdir = some d)
    (hva : va < utop) : userReads s d va = ((frames s).slot e (pageOf va)).map Prod.fst := by
  refine (h.walk hd hva (Or.inl rfl)).trans ?_
  rw [slot_pageOf]
  simp only [userRead_iff, entryAccess]
  split
  · rfl
  · rfl

theorem TablesOpen.read (h : TablesOpen s) {c : CpuIdx} (hd : (s.envs e).envPgdir = some (s.cr3 c))
    (hva : va < utop) :
    userAccess s c userRead va = ((frames s).slot e (pageOf va)).map Prod.fst := h.reads hd hva

theorem TablesOpen.write (h : TablesOpen s) {c : CpuIdx} (hd : (s.envs e).envPgdir = some (s.cr3 c))
    (hva : va < utop) : userAccess s c userWrite va = some f ↔
      (frames s).slot e (pageOf va) = some (f, .own) := by
  have hwalk : userAccess s c userWrite va = _ := h.walk hd hva (Or.inr rfl)
  rw [hwalk, slot_pageOf, entryAccess_eq_some]
  simp only [userWrite_iff]
  constructor
  · intro hx
    split at hx
    · rename_i hw
      exact ⟨hw.1, Option.some.inj hx, if_pos hw.2⟩
    · cases hx
  · rintro ⟨h1, h2, h3⟩
    have hw : pteOf s e va &&& pteW ≠ 0 := by
      intro hw
      rw [if_neg (not_not.mpr hw)] at h3
      split at h3
      · cases h3
      · cases h3
    rw [if_pos ⟨h1, hw⟩, h2]

end

/-! ### Page tables stay open -/

section

variable {c : CpuIdx} {cur e : EnvIdx} {s t m : KState} {L : List Nat} {H : Finset Nat} {d pp : Nat}
  {va perm : Word} {R : KState → Prop}

theorem TablesOpen.congr (h : TablesOpen s) (hd : ∀ e, (t.envs e).envPgdir = (s.envs e).envPgdir)
    (hm : ∀ e d i, (s.envs e).envPgdir = some d → t.mem d i = s.mem d i) : TablesOpen t := by
  intro e d i he hi hp
  rw [hd] at he
  rw [hm e d i he] at hp ⊢
  exact h e d i he hi hp

/-- The directory entries that `pgdir_walk` makes. -/
theorem pde_userWrite (T : Nat) :
    (page2pa T ||| pteP ||| pteW ||| pteU) &&& userWrite = userWrite := by
  have hor : page2pa T ||| pteP ||| pteW ||| pteU = page2pa T ||| (pteP ||| pteW ||| pteU) := by
    rw [BitVec.or_assoc, BitVec.or_assoc, BitVec.or_assoc]
  rw [hor, flags_or T _ (by decide)]
  decide

theorem pgdirWalk_open (h : PageInv s L H) (hd : (s.envs e).envPgdir = some d)
    (hi : pdx va < utopPdx) (ho : TablesOpen s) {x : Nat × Idx}
    (hrun : pgdirWalk d va true s = .ok (some x) m) : TablesOpen m := by
  have hent := tabFrame_of_dir (o := some e) hd hi
  cases ht : tabFrame s (some e) (pdx va) with
  | some T =>
    rw [pgdirWalk_found (hent ▸ ht) (h.tab_lt ht) h.window true] at hrun
    cases hrun
    exact ho
  | none =>
    cases L with
    | nil =>
      rw [pgdirWalk_full h.chain (hent ▸ ht)] at hrun
      cases hrun
    | cons T L =>
      have hT : T ∈ T :: L := List.mem_cons_self ..
      rw [pgdirWalk_new h.chain.1 (h.counted.managed T hT).1 h.window (hent ▸ ht)] at hrun
      cases hrun
      have hnd : ∀ {o : Owner} {x : Nat}, dirFrame s o = some x → x ≠ T :=
        fun hx hy => (h.notTable_of_free hT).not_dir _ (hy ▸ hx)
      intro e' d' i he hi' hp
      have he' : dirFrame s (some e') = some d' := he
      rw [newTable_mem (hnd (o := some e) hd).symm, if_neg (hnd he')] at hp ⊢
      split
      · exact pde_userWrite T
      · rename_i hne
        rw [if_neg hne] at hp
        exact ho e' d' i he hi' hp

theorem pageInsert_open (h : PageInv s L H) (hd : (s.envs e).envPgdir = some d)
    (hi : pdx va < utopPdx) (hpp : pp ∉ L) (ho : TablesOpen s) {r : Except Err Unit}
    (hrun : pageInsert c d pp va perm s = .ok r t) : TablesOpen t := by
  rcases pgdirWalk_create h (o := some e) hd hi with ⟨-, -, hw⟩ | ⟨T, m, hw, W⟩
  · simp only [pageInsert, run_bind, hw, run_pure] at hrun
    cases hrun
    exact ho
  obtain ⟨L', hm, hsub, -⟩ := W.inv
  have hmo := W.edit.only
  have hmd : (m.envs e).envPgdir = some d := by rw [hmo.envs]; exact hd
  have hmT : entryFrame (m.mem d (pdx va)) = some T := by
    rw [← tabFrame_of_dir (o := some e) hmd hi]
    exact W.tab
  have hslot : target m (.pte e (pdx va) (ptx va)) = entryFrame (m.mem T (ptx va)) := by
    simp only [target, pteAt_of_tab W.tab]
  obtain ⟨t', hrun', hmem, -⟩ := pageInsert_entry c perm hw hm.freePages (fun hx => hpp (hsub hx)) hmT
    (hm.tab_lt W.tab) fun q hq => hm.inUse (hslot.trans hq)
  rw [hrun'] at hrun
  cases hrun
  have hto : PmOnly s t := (pageInsert_pm (R := fun _ => True)).ok hrun'
  refine (pgdirWalk_open h hd hi ho hw).congr (fun x => by rw [hto.envs, hmo.envs]) fun x d' i hx => ?_
  have hx' : dirFrame m (some x) = some d' := hx
  rw [hmem, putEntry, if_neg fun hy => hm.separate.tab_ne_dir W.tab hx' hy.1.symm]

theorem pageRemove_open (h : PageInv s L H) (hd : (s.envs e).envPgdir = some d)
    (hi : pdx va < utopPdx) (ho : TablesOpen s) {r : Unit}
    (hrun : pageRemove c d va s = .ok r t) : TablesOpen t := by
  rcases pageLookup_run h hd hi with ⟨-, hl⟩ | ⟨f, T, hf, -, -, -⟩
  · rw [pageRemove_none c hl] at hrun
    cases hrun
    exact ho
  obtain ⟨T, ht, he, hTn, hp, hfn, hlink⟩ := h.mapped hd hf
  rw [pageRemove_run c he hTn h.window hp hfn hlink] at hrun
  cases hrun
  refine ho.congr (fun x => ?_) fun x d' i hx => ?_
  · rw [(((PmOnly.unref s f).trans (.flush _ _ _ _)).trans (.poke _ _ _ _)).envs]
  · have hx' : dirFrame s (some x) = some d' := hx
    rw [KState.poke_mem_of_ne _ _ _ _ (h.separate.tab_ne_dir ht hx').symm, flush_mem, unref_mem]

end

section

variable {c : CpuIdx} {cur e : EnvIdx} {s t : KState} {L : List Nat} {R : KState → Prop}

theorem pageInsert_open_wp {d pp : Nat} {va perm : Word} {H : Finset Nat} (h : PageInv s L H)
    (hd : (s.envs e).envPgdir = some d) (hi : pdx va < utopPdx) (hM : Managed s pp) (hpp : pp ∉ L)
    (hnt : NotTable s pp) (ho : TablesOpen s) :
    wp (pageInsert c d pp va perm) (fun _ t => TablesOpen t) (Leaves R) s := by
  rcases pageInsert_spec c perm h hd hi hM hpp hnt with ⟨-, -, hrun⟩ | ⟨t, hrun, -⟩
  · exact (wp_ok hrun).mpr (pageInsert_open h hd hi hpp ho hrun)
  · exact (wp_ok hrun).mpr (pageInsert_open h hd hi hpp ho hrun)

theorem sysPageMap_open (h : PageInv s L ∅) (hc : s.curenv c = some cur) (ho : TablesOpen s)
    {a1 a2 a3 a4 a5 : Word} :
    wp (sysPageMap c a1 a2 a3 a4 a5) (fun _ t => TablesOpen t) (Leaves R) s := by
  unfold sysPageMap
  rw [wp_bind, wp_ok (envid2env_run hc a1 true)]
  cases hl1 : lookupEnv s cur a1 true with
  | none => simpa using ho
  | some src =>
    simp only
    rw [wp_bind, wp_ok (envid2env_run hc a3 true)]
    cases hl2 : lookupEnv s cur a3 true with
    | none => simpa using ho
    | some dst =>
      simp only [wp_ite, wp_pure]
      refine ⟨fun _ => ho, fun hva => ⟨fun _ => ho, fun _ => ?_⟩⟩
      simp only [not_or, Bool.not_eq_false] at hva
      simp only [wp_bind]
      refine getPgdir_wp fun d hd => ?_
      rcases pageLookup_run h hd (pdx_of_vaOk hva.1) with ⟨-, hrun⟩ | ⟨f, T, hf, -, hrun, -⟩
      · rw [wp_ok hrun]
        simpa using ho
      rw [wp_ok hrun]
      simp only [wp_bind, wp_get, wp_ite, wp_pure]
      refine ⟨fun _ => ho, fun _ => getPgdir_wp fun d' hd' => ?_⟩
      obtain ⟨hM, hfree, hnt⟩ := insertable h hf
      refine (pageInsert_open_wp h hd' (pdx_of_vaOk hva.2) hM (hfree L h) hnt ho).mono
        (fun r t ht => ?_) fun _ _ hR => hR
      cases r with
      | error err => exact (wp_pure _).mpr ht
      | ok u => exact (wp_pure _).mpr ht

theorem sysPageAlloc_open (h : PageInv s L ∅) (hc : s.curenv c = some cur) (ho : TablesOpen s)
    {envid va perm : Word} :
    wp (sysPageAlloc c envid va perm) (fun _ t => TablesOpen t) (Leaves R) s := by
  unfold sysPageAlloc
  rw [wp_bind, wp_ok (envid2env_run hc envid true)]
  cases hl : lookupEnv s cur envid true with
  | none => simpa using ho
  | some e =>
    simp only [wp_ite, wp_pure]
    refine ⟨fun _ => ho, fun hva => ⟨fun _ => ho, fun _ => ?_⟩⟩
    simp only [Bool.not_eq_false] at hva
    rcases h.alloc true with ⟨rfl, hrun⟩ | ⟨f, m, L, rfl, hrun, hm⟩
    · rw [wp_bind, wp_ok hrun]
      simpa using ho
    rw [wp_bind, wp_ok hrun]
    simp only [wp_bind]
    have hom : TablesOpen m := ho.congr (fun x => by rw [hm.only.envs]) fun x d i hx => by
      have hx' : dirFrame m (some x) = some d := (congrFun hm.only.dirFrame _).trans hx
      rw [hm.mem d fun hdf => hm.notTable.not_dir _ (hdf ▸ hx')]
    refine getPgdir_wp fun d hd => ?_
    refine (pageInsert_open_wp hm.inv hd (pdx_of_vaOk hva) hm.managed hm.notFree hm.notTable
      hom).mono (fun r t ht => ?_) fun _ _ hR => hR
    cases r with
    | error err =>
      rw [wp_bind]
      unfold pageFree
      simp only [wp_bind, wp_get, wp_ite, wp_throw, wp_set, leaves_panic, implies_true, true_and]
      exact fun _ _ => (wp_pure _).mpr ht
    | ok u => exact (wp_pure _).mpr ht

theorem sysPageUnmap_open (h : PageInv s L ∅) (hc : s.curenv c = some cur) (ho : TablesOpen s)
    {envid va : Word} :
    wp (sysPageUnmap c envid va) (fun _ t => TablesOpen t) (Leaves R) s := by
  unfold sysPageUnmap
  rw [wp_bind, wp_ok (envid2env_run hc envid true)]
  cases hl : lookupEnv s cur envid true with
  | none => simpa using ho
  | some e =>
    simp only [wp_ite, wp_pure]
    refine ⟨fun _ => ho, fun hva => ?_⟩
    simp only [Bool.not_eq_false] at hva
    simp only [wp_bind]
    refine getPgdir_wp fun d hd => ?_
    rcases pageRemove_spec c h hd (pdx_of_vaOk hva) with ⟨-, hrun⟩ | ⟨f, t, -, hrun, -⟩
    · rw [wp_ok hrun]
      exact (wp_pure _).mpr (pageRemove_open h hd (pdx_of_vaOk hva) ho hrun)
    · rw [wp_ok hrun]
      exact (wp_pure _).mpr (pageRemove_open h hd (pdx_of_vaOk hva) ho hrun)

end

/-! ### What holds along a run -/

/-- Apart from `PFTEMP`, a frame is found at few pages. -/
def Few (s : KState) : Prop :=
  ∀ f, ∃ V : Finset PageNo, V.card ≤ 60 ∧ ∀ e i j, target s (.pte e i j) = some f →
    (i, j) ∈ V ∨ (i, j) = pageOf pftemp

/-- An entry that user code may use if it is present, and that `fork` does not leave shared. With `D`
    it is not copy-on-write above the stack. -/
structure Plain (D : Prop) (p : PageNo) (w : Word) : Prop where
  user : w &&& pteP ≠ 0 → w &&& pteU ≠ 0
  notShared : w &&& pteShare = 0
  notCow : D → Above p → w &&& pteCow = 0

/-- What holds of the kernel. With `D` the programs started in a `Reserved` state. -/
structure Sound (D : Prop) (s : KState) : Prop where
  inv : Inv True s
  exclusive : Exclusive Every s
  awake : Awake s
  tables : TablesOpen s
  few : D → Few s
  plain : ∀ e i j, Plain D (i, j) (pteAt s (some e) i j)

/-- CPU `c` executes `e` in user mode. -/
structure OnCpu (s : KState) (c : CpuIdx) (e : EnvIdx) : Prop where
  mode : (s.cpus c).mode = .user
  current : s.curenv c = some e

/-- The identity of `x`, its page directory, and whether it is free or waits to be started stay. -/
structure Stays (s t : KState) (x : EnvIdx) : Prop where
  id : (t.envs x).envId = (s.envs x).envId
  parent : (t.envs x).envParentId = (s.envs x).envParentId
  dir : (t.envs x).envPgdir = (s.envs x).envPgdir
  free : (t.envs x).envStatus = .free ↔ (s.envs x).envStatus = .free
  asleep : (t.envs x).envStatus = .notRunnable ↔ (s.envs x).envStatus = .notRunnable

section

variable {D : Prop} {c : CpuIdx} {cur e x : EnvIdx} {s t u : KState} {f : Nat}

theorem Stays.of_eq (h : t.envs x = s.envs x) : Stays s t x := by
  exact ⟨by rw [h], by rw [h], by rw [h], by rw [h], by rw [h]⟩

theorem OnCpu.of_cpus (h : OnCpu s c e) (hc : t.cpus = s.cpus) : OnCpu t c e :=
  ⟨by rw [hc]; exact h.mode, by rw [KState.curenv, hc]; exact h.current⟩

theorem Sound.page (h : Sound D s) : ∃ L, PageInv s L ∅ := h.inv.core.page

theorem Sound.dir (h : Sound D s) (hc : OnCpu s c e) : (s.envs e).envPgdir = some (s.cr3 c) := by
  obtain ⟨x, hx, hd⟩ := (h.inv.cpus c).running hc.mode
  obtain rfl := Option.some.inj (hx.symm.trans hc.current)
  exact hd

theorem Sound.running (h : Sound D s) (hc : OnCpu s c e) : (s.envs e).envStatus = .running :=
  h.awake c e hc.mode hc.current

theorem Sound.parent (h : Sound D s) (hc : OnCpu s c e) : Fork.Parent c e (s.cr3 c) s :=
  ⟨h.page, hc.current, h.dir hc, rfl⟩

theorem Sound.sole (h : Sound D s) (hc : OnCpu s c e) : ¬ Elsewhere s c e := by
  rintro ⟨k, hk, hm, hcur⟩
  exact hk (h.exclusive.sole k c e trivial trivial hm hc.mode hcur hc.current)

theorem Sound.waits (h : Sound D s) (hst : (s.envs e).envStatus ≠ .running) : ¬ Elsewhere s c e := by
  rintro ⟨k, -, hm, hcur⟩
  exact hst (h.awake k e hm hcur)

/-- Places of user pages, at the pages `V` in all environments. -/
def placesAt (V : Finset PageNo) : Finset (EnvIdx × PageNo) := Finset.univ ×ˢ V

theorem mem_placesAt {V : Finset PageNo} {y : EnvIdx × PageNo} : y ∈ placesAt V ↔ y.2 ∈ V := by
  rw [placesAt, Finset.mem_product, and_iff_right (Finset.mem_univ _)]

theorem card_placesAt (V : Finset PageNo) : (placesAt V).card = 1024 * V.card := by
  rw [placesAt, Finset.card_product, Finset.card_univ, Fintype.card_fin]

/-- No counter of a user page is about to wrap: every environment has the page at few addresses. -/
theorem Sound.room (h : Sound D s) (hD : D) {i j : Idx} (hf : target s (.pte e i j) = some f) :
    (s.pages f).ppRef ≠ 65535 := by
  obtain ⟨L, hL⟩ := h.page
  obtain ⟨V, hV, hin⟩ := h.few hD f
  have hnt := hL.notTable_of_pte hf
  have hplace : ∀ r, target s r = some f → ∃ y ∈ placesAt (insert (pageOf pftemp) V),
      Slot.pte y.1 y.2.1 y.2.2 = r := by
    intro r hr
    cases r with
    | dir x => exact absurd hr (hnt.2 _ trivial)
    | tab o a => exact absurd hr (hnt.2 _ trivial)
    | pte x a b =>
      refine ⟨(x, (a, b)), ?_, rfl⟩
      rw [mem_placesAt, Finset.mem_insert]
      exact (hin x a b hr).symm
  have hle := refs_le_card hplace
  have hins := Finset.card_insert_le (pageOf pftemp) V
  have hexact := hL.counted.exact f (hL.counted.target _ f hf)
  rw [card_placesAt] at hle
  have hmax : (65535 : BitVec 16).toNat = 65535 := rfl
  intro hx
  rw [hx, hmax] at hexact
  omega

theorem Sound.counted (h : Sound D s) (hD : D) (q : Request) : q.Counted s e := by
  cases q with
  | map srcva envid dstva perm => exact fun f hf => h.room hD hf
  | _ => trivial

@[simp] theorem reload_envs (c : CpuIdx) (s : KState) : (reload c s).envs = s.envs := rfl
@[simp] theorem reload_mem (c : CpuIdx) (s : KState) : (reload c s).mem = s.mem := rfl
@[simp] theorem reload_cpus (c : CpuIdx) (s : KState) : (reload c s).cpus = s.cpus := rfl
@[simp] theorem pteAt_reload (c : CpuIdx) (s : KState) : pteAt (reload c s) = pteAt s := rfl

/-- Coming back to user mode, the CPU caches nothing but what its tables say. -/
theorem mid_reload {T : Prop} (h : Mid T c ∅ s) (hc : s.curenv c = some e)
    (hd : (s.envs e).envPgdir = some (s.cr3 c)) : Inv T (reload c s) := by
  have hcr3 : (reload c s).cr3 c = s.cr3 c := Function.update_self ..
  have hmid : Mid T c ∅ (reload c s) := h.lcr3 _
  refine ⟨hmid.core, fun k => ?_⟩
  by_cases hk : k = c
  · subst hk
    refine ⟨fun _ => ⟨e, hc, by rw [hcr3]; exact hd⟩, fun _ _ x hx i j g hi hg => ?_⟩
    have hw : walk s.mem (s.cr3 k) (i.val * 1024 + j.val) = some g := by
      simpa [reload, KState.lcr3] using hg
    rw [hcr3] at hx
    rw [walk_eq (s := s) hx hi j] at hw
    exact hw
  · exact hmid.others k hk

/-- What a system call has to keep. -/
theorem Sound.of_mid (h : Sound D s) (hc : OnCpu s c cur) (hmid : Mid True c ∅ t)
    (hcpus : t.cpus = s.cpus) (hcr3 : t.cr3 = s.cr3)
    (hrun : ∀ e, (s.envs e).envStatus = .running → (t.envs e).envStatus = .running ∧
      (t.envs e).envPgdir = (s.envs e).envPgdir)
    (ht : TablesOpen t) (hf : D → Few t) (hu : ∀ e i j, Plain D (i, j) (pteAt t (some e) i j)) :
    Sound D (reload c t) := by
  have hon : ∀ {k e}, (t.cpus k).mode = .user → t.curenv k = some e → OnCpu s k e := fun hm hc =>
    ⟨by rw [hcpus] at hm; exact hm, by rw [KState.curenv, hcpus] at hc; exact hc⟩
  have hawake : Awake t := fun k e hm hc => (hrun e (h.running (hon hm hc))).1
  have hinv : Inv True (reload c t) := by
    refine mid_reload hmid (by rw [KState.curenv, hcpus]; exact hc.current) ?_
    rw [(hrun cur (h.running hc)).2, hcr3]
    exact h.dir hc
  refine ⟨hinv, ⟨hinv.core.envs, fun k k' e _ _ hm hm' hc hc' => ?_, fun k e _ hm hc => ?_,
    fun k _ hm => ?_⟩, hawake, ht, hf, hu⟩
  · have h1 := hon hm hc
    have h2 := hon hm' hc'
    exact h.exclusive.sole k k' e trivial trivial h1.mode h2.mode h1.current h2.current
  · show (t.envs e).envStatus ≠ .free ∧ (t.envs e).envStatus ≠ .runnable
    rw [hawake k e hm hc]
    exact ⟨by simp, by simp⟩
  · have hm' : (t.cpus k).mode ≠ .user := hm
    rw [hcpus] at hm'
    show t.curenv k = none
    rw [KState.curenv, hcpus]
    exact h.exclusive.idle k trivial hm'

theorem Sound.of_pm (h : Sound D s) (hc : OnCpu s c cur) (hmid : Mid True c ∅ t) (ho : PmOnly s t)
    (ht : TablesOpen t) (hf : D → Few t) (hu : ∀ e i j, Plain D (i, j) (pteAt t (some e) i j)) :
    Sound D (reload c t) :=
  h.of_mid hc hmid ho.cpus ho.cr3 (fun e he => by rw [ho.envs]; exact ⟨he, rfl⟩) ht hf hu

/-- Page tables as they were. -/
theorem Sound.few_of_pteAt (h : Sound D s) (hp : pteAt t = pteAt s) :
    (D → Few t) ∧ ∀ e i j, Plain D (i, j) (pteAt t (some e) i j) := by
  have htgt : ∀ e i j, target t (.pte e i j) = target s (.pte e i j) := fun e i j => by
    simp only [target, hp]
  refine ⟨fun hD f => ?_, by rw [hp]; exact h.plain⟩
  obtain ⟨V, hV, hin⟩ := h.few hD f
  exact ⟨V, hV, fun e i j hx => hin e i j (htgt e i j ▸ hx)⟩

theorem slot_of_pteAt (hp : pteAt t = pteAt s) : (frames t).slot = (frames s).slot := by
  funext e p
  simp only [frames, hp]

/-- A new record for one environment, with the page directory that it had. -/
theorem Sound.setEnv (h : Sound D s) (hc : OnCpu s c cur) {v : Env} (hd : v.envPgdir = (s.envs e).envPgdir)
    (hl : v.envLink = (s.envs e).envLink) (hlive : v.envStatus = .free ↔ (s.envs e).envStatus = .free)
    (hst : v.envStatus = (s.envs e).envStatus ∨ (s.envs e).envStatus ≠ .running) :
    Sound D (reload c (s.setEnv e v)) := by
  obtain ⟨hf, hu⟩ := h.few_of_pteAt (Fork.pteAt_setEnv hd)
  refine h.of_mid hc ((h.inv.mid c).setEnv hd hl hlive) rfl rfl (fun x hx => ?_)
    (h.tables.congr (fun x => Fork.setEnv_dir hd x) fun _ _ _ _ => rfl) hf hu
  refine ⟨?_, Fork.setEnv_dir hd x⟩
  rcases eq_or_ne x e with rfl | hne
  · simp only [KState.setEnv, Function.update_self]
    rcases hst with hst | hst
    · exact hst.trans hx
    · exact absurd hx hst
  · rw [setEnv_envs_of_ne hne]
    exact hx

end

/-! ### The calls that edit page tables -/

section

variable {D : Prop} {c : CpuIdx} {cur e dst : EnvIdx} {s t : KState} {f : Nat}
  {envid va srcva dstva perm : Word}
  {upcall : Word} {r : Except Err Word} {L : List Nat}

theorem perform_ok {q : Request} (h : perform upcall c q s = .ok r t) :
    ∃ u, q.call upcall c s = .ok r u ∧ t = reload c u := by
  obtain ⟨r', u, hu, h⟩ := bind_eq_ok h
  rw [run_bind, run_modify] at h
  cases h
  exact ⟨u, hu, rfl⟩

theorem pageOf_iff {a : Word} {i j : Idx} : (i, j) = pageOf a ↔ At a i j := Prod.mk_inj

theorem pageOf_eq {a b : Word} : pageOf a = pageOf b ↔ pgnum a = pgnum b :=
  pageOf_iff.trans at_iff

theorem puts_of_sets (h : Fork.Sets s t e va)
    (hdata : ∀ g, NotTable t g → (frames s).Mapped g → t.mem g = s.mem g)
    {x : Option (Nat × Access)} (hx : (frames t).slot e (pageOf va) = x) :
    (frames s).Puts (frames t) e (pageOf va) x := by
  obtain ⟨L, hL⟩ := h.page
  refine ⟨hx, fun y q hn => ?_, fun g hs ht => ?_⟩
  · have hp : pteAt t (some y) q.1 q.2 = pteAt s (some y) q.1 q.2 :=
      h.rest y q.1 q.2 fun hy => hn ⟨hy.1, pageOf_iff.mpr hy.2⟩
    simp only [frames, hp]
  · obtain ⟨y, q, a, hq⟩ := ht
    exact hdata g (hL.notTable_of_pte (target_of_slot hq)) hs

/-- The invariants on entries, when one of them was set. -/
theorem Sound.few_of_sets (h : Sound D s) (hs : Fork.Sets s t e va)
    (hfew : ∀ f, mappedAt t e va = some f →
      (∃ y q, target s (.pte y q.1 q.2) = some f ∧ (q = pageOf va ∨ pageOf va = pageOf pftemp)) ∨
        ∀ r, target t r = some f → r = .pte e (pdx va) (ptx va))
    (hu : Plain D (pageOf va) (pteOf t e va)) :
    (D → Few t) ∧ ∀ y i j, Plain D (i, j) (pteAt t (some y) i j) := by
  have hsame : ∀ y i j, ¬ (y = e ∧ At va i j) → pteAt t (some y) i j = pteAt s (some y) i j := hs.rest
  refine ⟨fun hD f => ?_, fun y i j => ?_⟩
  · obtain ⟨V, hV, hin⟩ := h.few hD f
    by_cases hf : mappedAt t e va = some f
    · rcases hfew f hf with ⟨z, q, hq, hpl⟩ | hsole
      · refine ⟨V, hV, fun y i j hx => ?_⟩
        by_cases hn : y = e ∧ At va i j
        · rw [pageOf_iff.mpr hn.2]
          rcases hpl with rfl | hpl
          · exact hin z _ _ hq
          · exact Or.inr hpl
        · simp only [target, hsame y i j hn] at hx
          exact hin y i j hx
      · refine ⟨{pageOf va}, by simp, fun y i j hx => Or.inl ?_⟩
        have hr := hsole _ hx
        cases hr
        exact Finset.mem_singleton_self _
    · refine ⟨V, hV, fun y i j hx => ?_⟩
      have hn : ¬ (y = e ∧ At va i j) := by
        rintro ⟨rfl, rfl, rfl⟩
        exact hf hx
      simp only [target, hsame y i j hn] at hx
      exact hin y i j hx
  · by_cases hn : y = e ∧ At va i j
    · obtain ⟨rfl, rfl, rfl⟩ := hn
      exact hu
    · rw [hsame y i j hn]
      exact h.plain y i j

theorem plain_of_shows (h : Shows t e va f perm) (hok : permOk perm = true)
    (hp : perm &&& pteShare = 0) (hcow : D → Above (pageOf va) → perm &&& pteCow = 0) :
    Plain D (pageOf va) (pteOf t e va) := by
  simp only [permOk, Bool.and_eq_true, decide_eq_true_eq] at hok
  exact ⟨fun _ => by rw [Fork.flags_of_shows h (by decide)]; exact hok.1.1,
    (Fork.flags_of_shows h (by decide)).trans hp,
    fun hD ha => (Fork.flags_of_shows h (by decide)).trans (hcow hD ha)⟩

theorem plain_zero {p : PageNo} : Plain D p 0 :=
  ⟨fun h => absurd h (by decide), by decide, fun _ _ => by decide⟩

theorem above_pageOf {a : Word} : Above (pageOf a) ↔ pgnum ustacktop ≤ pgnum a := by
  have hp : pgnum (pgaddr (pageOf a).1 (pageOf a).2) = pgnum a := by
    rw [← at_iff, pdx_pgaddr, ptx_pgaddr]
    exact ⟨rfl, rfl⟩
  rw [Above, hp]

theorem PagesFree.length {n : Nat} (h : PagesFree s n) (hL : PageInv s L ∅) : n ≤ L.length := by
  obtain ⟨L', hL', hn⟩ := h
  rw [hL.chain.unique hL']
  exact hn

theorem sysPageMap_data (hL : PageInv s L ∅) (hc : s.curenv c = some cur)
    (hl : lookupEnv s cur envid true = some dst) {d d' : Nat} (hd : (s.envs cur).envPgdir = some d)
    (hd' : (s.envs dst).envPgdir = some d')
    (hrun : sysPageMap c 0 srcva envid dstva perm s = .ok r t) (g : Nat) (hg : NotTable t g) :
    t.mem g = s.mem g := by
  by_cases hmay : MayMap s cur srcva dstva perm
  swap
  · rw [sysPageMap_inval hL hc (Fork.lookupEnv_self ..) hl hd hmay] at hrun
    cases hrun
    rfl
  rcases sysPageMap_run hL hc (Fork.lookupEnv_self ..) hl hd hd' hmay with
    ⟨-, hr⟩ | ⟨-, f, u, hr, -, hmap⟩
  · rw [hr] at hrun
    cases hrun
    rfl
  · rw [hr] at hrun
    cases hrun
    exact hmap.edit.data g hg

/-- `sys_page_map` of a page that the caller has, read-only, to the same page or to `PFTEMP`. -/
theorem Sound.map (h : Sound D s) (hc : OnCpu s c cur) (hl : lookupEnv s cur envid true = some dst)
    {d' : Nat} (hd' : (s.envs dst).envPgdir = some d') {a : Access}
    (hsrc : (frames s).slot cur (pageOf srcva) = some (f, a))
    (hva : vaOk srcva = true ∧ vaOk dstva = true) (hperm : permOk perm = true)
    (hw : perm &&& pteW = 0) (hshare : perm &&& pteShare = 0)
    (hplace : pageOf srcva = pageOf dstva ∨ pageOf dstva = pageOf pftemp)
    (hcow : D → Above (pageOf dstva) → perm &&& pteCow = 0) (hno : ¬ Elsewhere s c dst)
    (hroom : (s.pages f).ppRef ≠ 65535) (hmem : PagesFree s (tablesMissing s dst dstva))
    (hrun : perform upcall c (.map srcva envid dstva perm) s = .ok r t) :
    r = .ok 0 ∧ Sound D t ∧ t.envs = s.envs ∧ (frames s).Puts (frames t) dst (pageOf dstva)
      (some (f, if perm &&& pteCow ≠ 0 then .cow else .readOnly)) := by
  obtain ⟨u, hcall, rfl⟩ := perform_ok hrun
  replace hrun : sysPageMap c 0 srcva envid dstva perm s = .ok r u := hcall
  obtain ⟨L, hL⟩ := h.page
  have hf := mappedAt_of_slot hsrc
  have hd := h.dir hc
  have hmay : MayMap s cur srcva dstva perm :=
    ⟨hva, hperm, by rw [hf]; simp, fun hx => hx.2 hw⟩
  rcases Fork.sysPageMap_sets hL hc.current (Fork.lookupEnv_self ..) hl hd hd' hrun with
    ⟨_, -, -, hwhy⟩ | ⟨g, hr, -, hg, hshow, hset, -⟩
  · obtain ⟨hnil, htab⟩ := hwhy hmay
    have hlen := hmem.length hL
    rw [hnil, tablesMissing, if_pos htab] at hlen
    exact absurd hlen (by decide)
  obtain rfl := Option.some.inj (hf.symm.trans hg)
  have hs := hset (Or.inl hroom)
  have hsafe : (Call.mk 5 0 srcva envid dstva perm).Safe s cur True c := by
    have h5 : ∀ n, (Call.mk 5 0 srcva envid dstva perm).no = n → n = 5 := fun n hx => hx.symm
    refine ⟨fun x hx => absurd (h5 _ hx.1) (by decide), fun x hx => absurd (h5 _ hx.1) (by decide),
      fun x v g' hins => ?_, fun _ x hx => ?_⟩
    · cases hins with
      | map _ hsl _ _ _ htgt =>
        obtain rfl := Option.some.inj ((Fork.lookupEnv_self ..).symm.trans hsl)
        obtain rfl := Option.some.inj (hf.symm.trans htgt)
        exact Or.inl hroom
      | send hsend _ => exact absurd (h5 _ hsend.1) (by decide)
    · cases hx with
      | alloc h4 => exact absurd (h5 _ h4) (by decide)
      | unmap h6 => exact absurd (h5 _ h6) (by decide)
      | insert hins =>
        cases hins with
        | map _ _ hl' =>
          obtain rfl := Option.some.inj (hl.symm.trans hl')
          exact hno
        | send hsend _ => exact absurd (h5 _ hsend.1) (by decide)
  have hmid := (sysPageMap_mid (R := fun _ => True) (h.inv.mid c) hc.current hsafe).ok hrun
  have htab := (sysPageMap_open (R := fun _ => True) hL hc.current h.tables).ok hrun
  obtain ⟨hfew, hu⟩ := h.few_of_sets hs (fun g' hg' => Or.inl (by
    obtain rfl := Option.some.inj (hshow.frame.symm.trans hg')
    exact ⟨cur, pageOf srcva, hf, hplace⟩)) (plain_of_shows hshow hperm hshare hcow)
  refine ⟨hr, h.of_pm hc hmid hs.only htab hfew hu, hs.only.envs,
    puts_of_sets hs (fun g' hg' _ => sysPageMap_data hL hc.current hl hd hd' hrun g' hg') ?_⟩
  rw [slot_of_shows hshow hperm, if_neg (not_not.mpr hw)]

/-- `sys_page_alloc` of a writable page. -/
theorem Sound.alloc (h : Sound D s) (hc : OnCpu s c cur) (hl : lookupEnv s cur envid true = some dst)
    {d' : Nat} (hd' : (s.envs dst).envPgdir = some d') (hva : vaOk va = true)
    (hperm : permOk perm = true) (hw : perm &&& pteW ≠ 0) (hshare : perm &&& pteShare = 0)
    (hcow : perm &&& pteCow = 0) (hno : ¬ Elsewhere s c dst)
    (hmem : PagesFree s (1 + tablesMissing s dst va))
    (hrun : perform upcall c (.alloc envid va perm) s = .ok r t) :
    r = .ok 0 ∧ Sound D t ∧ t.envs = s.envs ∧ ∃ g, ¬ (frames s).Mapped g ∧ (t.mem g = fun _ => 0) ∧
      (frames s).Puts (frames t) dst (pageOf va) (some (g, .own)) := by
  obtain ⟨t, hcall, rfl⟩ := perform_ok hrun
  replace hrun : sysPageAlloc c envid va perm s = .ok r t := hcall
  obtain ⟨L, hL⟩ := h.page
  have hlen := hmem.length hL
  rcases sysPageAlloc_run hL hc.current hl hd' hva hperm with
    ⟨hnil, -⟩ | ⟨u, -, hlt, -⟩ | ⟨g, m, u, L', -, hr, rfl, hm, hmap⟩
  · rw [hnil] at hlen
    exact absurd hlen (by simp)
  · exact absurd hlen (by omega)
  have hrun' := hrun
  rw [hr] at hrun
  cases hrun
  obtain ⟨g', hshow', hs, -, hsole⟩ := Fork.sysPageAlloc_sets hL hc.current hl hd' hr
  obtain ⟨hshow, hzero, -⟩ := hm.mapped hmap hperm
  obtain rfl := Option.some.inj (hshow'.frame.symm.trans hshow.frame)
  have hfresh : ¬ (frames s).Mapped g' := by
    rintro ⟨y, q, a, hq⟩
    refine (hm.inv.counted.inHand g' (Finset.mem_singleton_self g')).2 (.pte y q.1 q.2) ?_
    have htq := target_of_slot hq
    simp only [target] at htq ⊢
    rw [hm.tables.2]
    exact htq
  have hmid := (sysPageAlloc_mid (R := fun _ => True) (h.inv.mid c) hc.current
    fun _ x hx _ _ he => by
      obtain rfl := Option.some.inj (hl.symm.trans hx)
      exact absurd he hno).ok hrun'
  have htab := (sysPageAlloc_open (R := fun _ => True) hL hc.current h.tables).ok hrun'
  obtain ⟨hfew, hu⟩ := h.few_of_sets hs (fun f hf => Or.inr (by
    obtain rfl := Option.some.inj (hshow.frame.symm.trans hf)
    exact hsole)) (plain_of_shows hshow hperm hshare fun _ _ => hcow)
  refine ⟨rfl, h.of_pm hc hmid hs.only htab hfew hu, hs.only.envs, g', hfresh, hzero,
    puts_of_sets hs (fun f hf hs => ?_) ?_⟩
  · have hne : f ≠ g' := fun hx => hfresh (hx ▸ hs)
    rw [hmap.edit.data f hf, hm.mem f hne]
  · rw [slot_of_shows hshow hperm, if_pos hw]

/-- `sys_page_unmap` of a page of the caller. -/
theorem Sound.unmap (h : Sound D s) (hc : OnCpu s c cur) (hva : vaOk va = true)
    (hno : ¬ Elsewhere s c cur) (hrun : perform upcall c (.unmap va) s = .ok r t) :
    r = .ok 0 ∧ Sound D t ∧ t.envs = s.envs ∧ (frames s).Puts (frames t) cur (pageOf va) none := by
  obtain ⟨t, hcall, rfl⟩ := perform_ok hrun
  replace hrun : sysPageUnmap c 0 va s = .ok r t := hcall
  obtain ⟨L, hL⟩ := h.page
  have hd := h.dir hc
  have hva' : ¬ vaOk va = false := by simp [hva]
  have hpg : getPgdir cur s = .ok (s.cr3 c) s := getPgdir_run hd
  have hl : lookupEnv s cur 0 true = some cur := Fork.lookupEnv_self ..
  have hres : ∃ u, sysPageUnmap c 0 va s = .ok (.ok 0) u ∧ (∀ g, NotTable u g → u.mem g = s.mem g) ∧
      (pteOf u cur va = pteOf s cur va ∨ pteOf u cur va = 0) := by
    rcases pageRemove_spec c hL hd (pdx_of_vaOk hva) with ⟨-, hr⟩ | ⟨f, u, -, hr, hun⟩
    · exact ⟨s, by simp only [sysPageUnmap, run_bind, envid2env_run hc.current, hl, if_neg hva', hpg,
        hr, run_pure], fun _ _ => rfl, Or.inl rfl⟩
    · exact ⟨u, by simp only [sysPageUnmap, run_bind, envid2env_run hc.current, hl, if_neg hva', hpg,
        hr, run_pure], hun.edit.data, Or.inr hun.entry⟩
  obtain ⟨u, hr, hdata, hpte⟩ := hres
  have hrun' := hrun
  rw [hr] at hrun
  cases hrun
  obtain ⟨hs, hnone⟩ := Fork.sysPageUnmap_sets hL hc.current hl hd hr
  have hmid := (sysPageUnmap_mid (R := fun _ => True) (h.inv.mid c) hc.current
    fun _ x hx _ he => by
      obtain rfl := Option.some.inj (hl.symm.trans hx)
      exact absurd he hno).ok hrun'
  have htab := (sysPageUnmap_open (R := fun _ => True) hL hc.current h.tables).ok hrun'
  have hslot : (frames t).slot cur (pageOf va) = none := by
    cases hx : (frames t).slot cur (pageOf va) with
    | none => rfl
    | some y =>
      obtain ⟨f, a⟩ := y
      rw [mappedAt_of_slot hx] at hnone
      cases hnone
  have hu : Plain D (pageOf va) (pteOf t cur va) := by
    rcases hpte with hp | hp
    · rw [hp]
      exact h.plain ..
    · rw [hp]
      exact plain_zero
  obtain ⟨hfew, hu⟩ := h.few_of_sets hs (fun f hf => by rw [hnone] at hf; cases hf) hu
  exact ⟨rfl, h.of_pm hc hmid hs.only htab hfew hu, hs.only.envs,
    puts_of_sets hs (fun g hg _ => hdata g hg) hslot⟩

end

end CowFork

end Jos
