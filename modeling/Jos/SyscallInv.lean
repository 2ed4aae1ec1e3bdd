import Jos.EnvInv

/-!
  System calls keep the invariant.

  A call is safe when it does not run into one of the kernel's unguarded cases: destroying an
  environment that another CPU runs, a permission that `sys_ipc_try_send` does not check, and a
  full reference counter. -/

namespace Jos

open Lib RefCount

/-- A system call: its number and arguments. -/
structure Call where
  no : Nat
  a1 : Word
  a2 : Word
  a3 : Word
  a4 : Word
  a5 : Word

/-- The call that a trap frame makes. -/
def Call.ofTf (tf : Trapframe) : Call :=
  ⟨tf.tfRegs.regEax.toNat, tf.tfRegs.regEdx, tf.tfRegs.regEcx, tf.tfRegs.regEbx,
    tf.tfRegs.regEdi, tf.tfRegs.regEsi⟩

namespace Call

variable (s : KState) (cur : EnvIdx) (call : Call)

/-- `sys_env_destroy` on `e`. -/
def Destroys (e : EnvIdx) : Prop := call.no = 3 ∧ lookupEnv s cur call.a1 true = some e

/-- `sys_ipc_try_send` of a page to `e`, which is receiving and wants one. -/
def SendsPage (e : EnvIdx) : Prop :=
  call.no = 11 ∧ lookupEnv s cur call.a1 false = some e ∧ (s.envs e).envIpcRecving = true ∧
    call.a3 < utop ∧ (s.envs e).envIpcDstva < utop

/-- A call that asks for the mapped page `f` to be mapped at `va` of `e` as well. -/
inductive Inserts (e : EnvIdx) : Word → Nat → Prop
  | map {src : EnvIdx} {f : Nat} : call.no = 5 → lookupEnv s cur call.a1 true = some src →
      lookupEnv s cur call.a3 true = some e → vaOk call.a2 = true → vaOk call.a4 = true →
      target s (.pte src (pdx call.a2) (ptx call.a2)) = some f → Inserts e call.a4 f
  | send {f : Nat} : call.SendsPage s cur e →
      target s (.pte cur (pdx call.a3) (ptx call.a3)) = some f →
      Inserts e (s.envs e).envIpcDstva f

/-- A call that takes away a mapping of `e`, or replaces it by one of another page. -/
inductive Displaces (e : EnvIdx) : Prop
  | alloc : call.no = 4 → lookupEnv s cur call.a1 true = some e → vaOk call.a2 = true →
      permOk call.a3 = true → target s (.pte e (pdx call.a2) (ptx call.a2)) ≠ none → Displaces e
  | unmap : call.no = 6 → lookupEnv s cur call.a1 true = some e → vaOk call.a2 = true →
      target s (.pte e (pdx call.a2) (ptx call.a2)) ≠ none → Displaces e
  | insert {va : Word} {f g : Nat} : call.Inserts s cur e va f →
      target s (.pte e (pdx va) (ptx va)) = some g → g ≠ f → Displaces e

/-- The call stays clear of the unguarded cases. With `T`, it also takes nothing away from an
    environment that another CPU runs. -/
structure Safe (T : Prop) (c : CpuIdx) : Prop where
  destroy : ∀ e, call.Destroys s cur e → MayDestroy s c e
  perm : ∀ e, call.SendsPage s cur e → call.a4 &&& ~~~pteSyscall = 0
  count : ∀ e va f, call.Inserts s cur e va f →
    (s.pages f).ppRef ≠ 65535 ∨ target s (.pte e (pdx va) (ptx va)) = some f
  tlb : T → ∀ e, call.Displaces s cur e → ¬ Elsewhere s c e

end Call

theorem pdx_of_vaOk {va : Word} (h : vaOk va = true) : pdx va < utopPdx := by
  simp only [vaOk, Bool.and_eq_true, decide_eq_true_eq] at h
  exact pdx_lt_utopPdx.mpr h.1

theorem perm_of_permOk {perm : Word} (h : permOk perm = true) : perm &&& ~~~pteSyscall = 0 := by
  simp only [permOk, Bool.and_eq_true, decide_eq_true_eq] at h
  exact h.2

/-- What is found with a check is found without one. -/
theorem lookupEnv_unchecked {s : KState} {cur e : EnvIdx} {envid : Word}
    (h : lookupEnv s cur envid true = some e) :
    lookupEnv s cur envid false = some e := by
  unfold lookupEnv at h ⊢
  split
  · rename_i h0
    rwa [if_pos h0] at h
  · rename_i h0
    rw [if_neg h0] at h
    split
    · rename_i h1
      rw [if_pos h1] at h
      cases h
    · rename_i h1
      rw [if_neg h1] at h
      split at h
      · cases h
      · simpa using h

/-- What `envid2env` finds is live if the caller is. -/
theorem lookupEnv_live {s : KState} {cur e : EnvIdx} {envid : Word} {chk : Bool}
    (hcur : (s.envs cur).envStatus ≠ .free) (h : lookupEnv s cur envid chk = some e) :
    (s.envs e).envStatus ≠ .free := by
  unfold lookupEnv at h
  split at h
  · cases h; exact hcur
  · split at h
    · cases h
    · rename_i hn
      split at h
      · cases h
      · cases h
        exact fun hf => hn (Or.inl hf)

section

variable {T : Prop} {c : CpuIdx} {cur : EnvIdx} {s : KState} {R : KState → Prop}

/-- A page that some slot below `UTOP` refers to can be inserted elsewhere. -/
theorem insertable {L : List Nat} {H : Finset Nat} (h : PageInv s L H) {e : EnvIdx} {i j : Idx}
    {f : Nat} (hf : target s (.pte e i j) = some f) :
    Managed s f ∧ (∀ L, PageInv s L H → f ∉ L) ∧ NotTable s f :=
  ⟨h.counted.target _ f hf, fun _ h' => h'.counted.not_free_of_target hf, h.notTable_of_pte hf⟩

/-! ### The calls that edit page tables -/

theorem sysPageAlloc_mid {envid va perm : Word} (h : Mid T c ∅ s) (hc : s.curenv c = some cur)
    (hs : T → ∀ e, lookupEnv s cur envid true = some e → vaOk va = true → permOk perm = true →
      Elsewhere s c e → target s (.pte e (pdx va) (ptx va)) = none) :
    wp (sysPageAlloc c envid va perm) (fun _ t => Mid T c ∅ t) (Leaves R) s := by
  unfold sysPageAlloc
  rw [wp_bind, wp_ok (envid2env_run hc envid true)]
  cases hl : lookupEnv s cur envid true with
  | none => simpa using h
  | some e =>
    simp only [wp_ite, wp_pure]
    refine ⟨fun _ => h, fun hva => ⟨fun _ => h, fun hperm => ?_⟩⟩
    have hva' : vaOk va = true := by simpa using hva
    have hperm' : permOk perm = true := by simpa using hperm
    rcases h.pageAlloc true with ⟨-, hrun⟩ | ⟨f, m, hrun, hm, ho, ht, hM, h0, hf, -⟩
    · rw [wp_bind, wp_ok hrun]
      simpa using h
    rw [wp_bind, wp_ok hrun]
    simp only [wp_bind]
    refine getPgdir_wp fun d hd => ?_
    obtain ⟨L, hL⟩ := hm.core.page
    have hmem : f ∈ ({f} : Finset Nat) := Finset.mem_singleton_self f
    have hfree : ∀ L, PageInv m L {f} → f ∉ L := fun L' h' hx =>
      ((h'.counted.free_iff f hM).mp hx).2 hmem
    have hT : T → Elsewhere m c e → ∀ g, target m (.pte e (pdx va) (ptx va)) = some g → g = f := by
      intro hT' hE g hg
      obtain ⟨k, hk, hu, hcur⟩ := hE
      rw [ho.cpus] at hu
      rw [ho.curenv] at hcur
      rw [ht, hs hT' e hl hva' hperm' ⟨k, hk, hu, hcur⟩] at hg
      cases hg
    rcases hm.pageInsert hd (pdx_of_vaOk hva') hM hfree (hL.notTable_of_held hmem)
      (perm_of_permOk hperm') (Or.inl (by rw [h0]; decide)) hT with ⟨-, hins⟩ | ⟨t, hins, htm, -⟩
    · rw [wp_ok hins]
      have hpush : pageFree f m = .ok () (m.push f) :=
        pageFree_run h0 (hL.unlinked f hM (hfree L hL))
      rw [wp_bind, wp_ok hpush, wp_pure]
      have hP : PageInv (m.push f) (f :: L) ∅ := by
        have := hL.push hmem
        rwa [Finset.erase_singleton] at this
      have hE : Edited (some e) Nowhere m (m.push f) := .of_mem (.push m f) rfl
      exact hm.edited hE (.of_tlb rfl) ⟨_, hP⟩ (fun _ _ hx => hx.elim)
        fun _ _ i j g hg => by rw [target_of_mem (PmOnly.push m f) rfl]; exact hg
    · rw [wp_ok hins]
      rw [Finset.erase_singleton] at htm
      simpa using htm

theorem sysPageMap_mid {a1 a2 a3 a4 a5 : Word} (h : Mid T c ∅ s) (hc : s.curenv c = some cur)
    (hs : (Call.mk 5 a1 a2 a3 a4 a5).Safe s cur T c) :
    wp (sysPageMap c a1 a2 a3 a4 a5) (fun _ t => Mid T c ∅ t) (Leaves R) s := by
  unfold sysPageMap
  rw [wp_bind, wp_ok (envid2env_run hc a1 true)]
  cases hl1 : lookupEnv s cur a1 true with
  | none => simpa using h
  | some src =>
    simp only
    rw [wp_bind, wp_ok (envid2env_run hc a3 true)]
    cases hl2 : lookupEnv s cur a3 true with
    | none => simpa using h
    | some dst =>
      simp only [wp_ite, wp_pure]
      refine ⟨fun _ => h, fun hva => ⟨fun _ => h, fun hperm => ?_⟩⟩
      simp only [not_or, Bool.not_eq_false] at hva
      have hperm' : permOk a5 = true := by simpa using hperm
      simp only [wp_bind]
      refine getPgdir_wp fun d hd => ?_
      obtain ⟨L, hL⟩ := h.core.page
      rcases pageLookup_run hL hd (pdx_of_vaOk hva.1) with ⟨-, hrun⟩ | ⟨f, Tb, hf, -, hrun, -⟩
      · rw [wp_ok hrun]; simpa using h
      rw [wp_ok hrun]
      simp only [wp_bind, wp_get, wp_ite, wp_pure]
      refine ⟨fun _ => h, fun _ => getPgdir_wp fun d' hd' => ?_⟩
      have hins : (Call.mk 5 a1 a2 a3 a4 a5).Inserts s cur dst a4 f :=
        .map rfl hl1 hl2 hva.1 hva.2 hf
      obtain ⟨hM, hfree, hnt⟩ := insertable hL hf
      have hT : T → Elsewhere s c dst →
          ∀ g, target s (.pte dst (pdx a4) (ptx a4)) = some g → g = f := by
        intro hT' hE g hg
        by_contra hne
        exact hs.tlb hT' dst (.insert hins hg hne) hE
      rcases h.pageInsert hd' (pdx_of_vaOk hva.2) hM hfree hnt (perm_of_permOk hperm')
        (hs.count dst a4 f hins) hT with ⟨-, hrun'⟩ | ⟨t, hrun', ht, -⟩
      · rw [wp_ok hrun']; simpa using h
      · rw [wp_ok hrun']
        simpa using ht

theorem sysPageUnmap_mid {envid va : Word} (h : Mid T c ∅ s) (hc : s.curenv c = some cur)
    (hs : T → ∀ e, lookupEnv s cur envid true = some e → vaOk va = true →
      Elsewhere s c e → target s (.pte e (pdx va) (ptx va)) = none) :
    wp (sysPageUnmap c envid va) (fun _ t => Mid T c ∅ t) (Leaves R) s := by
  unfold sysPageUnmap
  rw [wp_bind, wp_ok (envid2env_run hc envid true)]
  cases hl : lookupEnv s cur envid true with
  | none => simpa using h
  | some e =>
    simp only [wp_ite, wp_pure]
    refine ⟨fun _ => h, fun hva => ?_⟩
    have hva' : vaOk va = true := by simpa using hva
    simp only [wp_bind]
    refine getPgdir_wp fun d hd => ?_
    obtain ⟨t, hrun, ht, -⟩ := h.pageRemove hd (pdx_of_vaOk hva') fun hT => hs hT e hl hva'
    rw [wp_ok hrun]
    simpa using ht

/-- No environment changed its status. -/
def KeepsStatus (s t : KState) : Prop := ∀ x, (t.envs x).envStatus = (s.envs x).envStatus

theorem ipcSendPage_mid {inp : Input} {e : EnvIdx} {a1 a2 a3 a4 a5 : Word} (h : Mid T c ∅ s)
    (hc : s.curenv c = some cur) (hl : lookupEnv s cur a1 false = some e)
    (hrecv : (s.envs e).envIpcRecving = true) (ha3 : a3 < utop)
    (hs : (Call.mk 11 a1 a2 a3 a4 a5).Safe s cur T c) :
    wp (ipcSendPage c inp e a3 a4) (fun _ t => Mid T c ∅ t ∧ KeepsStatus s t ∧
      t.curenv c = some cur) (Leaves R) s := by
  have hkeep : Mid T c ∅ s ∧ KeepsStatus s s ∧ s.curenv c = some cur := ⟨h, fun _ => rfl, hc⟩
  unfold ipcSendPage
  rw [wp_bind, wp_ok (getCurenv_run hc)]
  simp only [wp_bind]
  refine getPgdir_wp fun d hd => ?_
  obtain ⟨L, hL⟩ := h.core.page
  have hi : pdx a3 < utopPdx := pdx_lt_utopPdx.mpr ha3
  rcases pageLookup_run hL hd hi with ⟨-, hrun⟩ | ⟨f, Tb, hf, -, hrun, -⟩
  · rw [wp_ok hrun]
    simp only [wp_ite, wp_pure]
    refine ⟨fun _ => hkeep, fun _ => ?_⟩
    cases inp.strayPte with
    | none => simp
    | some _ => exact (wp_pure _).mpr hkeep
  rw [wp_ok hrun]
  simp only [wp_ite, wp_pure, wp_bind, wp_get]
  refine ⟨fun _ => hkeep, fun _ => ⟨fun _ => hkeep, fun _ => ⟨fun _ => hkeep, fun _ =>
    ⟨fun hdst => ?_, fun _ => hkeep⟩⟩⟩⟩
  refine getPgdir_wp fun d' hd' => ?_
  have hsend : (Call.mk 11 a1 a2 a3 a4 a5).SendsPage s cur e := ⟨rfl, hl, hrecv, ha3, hdst⟩
  have hins := Call.Inserts.send hsend hf
  obtain ⟨hM, hfree, hnt⟩ := insertable hL hf
  have hT : T → Elsewhere s c e → ∀ g, target s
      (.pte e (pdx (s.envs e).envIpcDstva) (ptx (s.envs e).envIpcDstva)) = some g → g = f := by
    intro hT' hE g hg
    by_contra hne
    exact hs.tlb hT' e (.insert hins hg hne) hE
  rcases h.pageInsert hd' (pdx_lt_utopPdx.mpr hdst) hM hfree hnt (hs.perm e hsend)
    (hs.count e _ f hins) hT with ⟨-, hrun'⟩ | ⟨t, hrun', ht, hmap⟩
  · rw [wp_ok hrun']
    exact (wp_pure _).mpr hkeep
  · rw [wp_ok hrun']
    simp only [wp_bind, wp_modify, wp_pure]
    rw [Finset.erase_empty] at ht
    refine ⟨ht.setEnv rfl rfl Iff.rfl, fun x => ?_, ?_⟩
    · have he : t.envs = s.envs := hmap.edit.only.envs
      by_cases hx : x = e
      · subst hx; simp [KState.setEnv, he]
      · simp [KState.setEnv, hx, he]
    · exact (congrFun hmap.edit.only.curenv c).trans hc

theorem sysIpcTrySend_mid {inp : Input} {a1 a2 a3 a4 a5 : Word} (h : Mid T c ∅ s)
    (hc : s.curenv c = some cur) (hlive : (s.envs cur).envStatus ≠ .free)
    (hs : (Call.mk 11 a1 a2 a3 a4 a5).Safe s cur T c) :
    wp (sysIpcTrySend c inp a1 a2 a3 a4) (fun _ t => Mid T c ∅ t) (Leaves R) s := by
  unfold sysIpcTrySend
  rw [wp_bind, wp_ok (envid2env_run hc a1 false)]
  cases hl : lookupEnv s cur a1 false with
  | none => simpa using h
  | some e =>
    simp only
    rw [wp_bind, wp_get]
    refine wp_ite.mpr ⟨fun _ => (wp_pure _).mpr h, fun hrecv => ?_⟩
    have hrecv' : (s.envs e).envIpcRecving = true := by simpa using hrecv
    have hel := lookupEnv_live hlive hl
    have finish : ∀ (r : Except Err Unit) t, Mid T c ∅ t ∧ KeepsStatus s t ∧
        t.curenv c = some cur →
        wp (sysIpcTrySendRest c e a2 r) (fun _ t => Mid T c ∅ t) (Leaves R) t := by
      rintro r t ⟨ht, hst, hct⟩
      cases r with
      | error err => exact (wp_pure _).mpr ht
      | ok _ =>
        simp only [sysIpcTrySendRest, ipcDeliver]
        rw [wp_bind, wp_bind, wp_ok (getCurenv_run hct)]
        simp only [wp_modify, wp_pure]
        refine ht.setEnv rfl rfl ?_
        have := hst e
        simp [this, hel]
    refine wp_ite.mpr ⟨fun ha3 => ?_, fun _ => ?_⟩ <;> rw [wp_bind]
    · exact (ipcSendPage_mid h hc hl hrecv' ha3 hs).mono finish fun _ _ hR => hR
    · exact (wp_pure _).mpr (finish (.ok ()) s ⟨h, fun _ => rfl, hc⟩)

/-! ### The other calls -/

theorem sysExofork_mid (h : Mid T c ∅ s) (hc : s.curenv c = some cur) :
    wp (sysExofork c) (fun _ t => Mid T c ∅ t) (Leaves R) s := by
  unfold sysExofork
  rw [wp_bind, wp_ok (getCurenv_run hc)]
  simp only [wp_bind, wp_get]
  rcases h.envAlloc (s.envs cur).envId with ⟨-, err, hrun⟩ | ⟨e, p, t, hrun, ht, hcr, -⟩
  · rw [wp_ok hrun]; simpa using h
  · rw [wp_ok hrun]
    simp only [wp_bind, wp_modify, wp_get, wp_pure]
    refine ht.setEnv rfl rfl ?_
    have he : t.envs e = newEnv s e (s.envs cur).envId p := by
      rw [hcr.envs, Function.update_self]
    simp [he, newEnv]

theorem statusOfWord_ne_free {w : Word} {st : EnvStatus} (h : statusOfWord w = some st) :
    st = .runnable ∨ st = .notRunnable := by
  unfold statusOfWord at h
  split at h
  · cases h; exact Or.inl rfl
  · split at h
    · cases h; exact Or.inr rfl
    · cases h

theorem sysEnvSetStatus_mid {envid status : Word} (h : Mid T c ∅ s) (hc : s.curenv c = some cur)
    (hlive : (s.envs cur).envStatus ≠ .free) :
    wp (sysEnvSetStatus c envid status) (fun _ t => Mid T c ∅ t) (Leaves R) s := by
  unfold sysEnvSetStatus
  cases hst : statusOfWord status with
  | none => exact (wp_pure _).mpr h
  | some st =>
    simp only
    rw [wp_bind, wp_ok (envid2env_run hc envid true)]
    cases hl : lookupEnv s cur envid true with
    | none => simpa using h
    | some e =>
      simp only [wp_bind, wp_modify, wp_pure]
      refine h.setEnv rfl rfl ?_
      have := lookupEnv_live hlive hl
      rcases statusOfWord_ne_free hst with rfl | rfl <;> simp [this]

theorem sysEnvSetPgfaultUpcall_mid {envid func : Word} (h : Mid T c ∅ s)
    (hc : s.curenv c = some cur) :
    wp (sysEnvSetPgfaultUpcall c envid func) (fun _ t => Mid T c ∅ t) (Leaves R) s := by
  unfold sysEnvSetPgfaultUpcall
  rw [wp_bind, wp_ok (envid2env_run hc envid true)]
  cases hl : lookupEnv s cur envid true with
  | none => simpa using h
  | some e =>
    simp only [wp_bind, wp_modify, wp_pure]
    exact h.setEnv rfl rfl Iff.rfl

theorem sysEnvDestroy_mid {envid : Word} (h : Mid T c ∅ s) (hc : s.curenv c = some cur)
    (hs : ∀ e, lookupEnv s cur envid true = some e → MayDestroy s c e) :
    wp (sysEnvDestroy c envid) (fun _ t => Mid T c ∅ t) (Leaves (Inv T)) s := by
  unfold sysEnvDestroy
  rw [wp_bind, wp_ok (envid2env_run hc envid true)]
  cases hl : lookupEnv s cur envid true with
  | none => simpa using h
  | some e =>
    simp only [wp_bind]
    exact envDestroy_mid h (hs e hl) fun t ht => (wp_pure _).mpr ht

theorem sysIpcRecv_mid {dstva : Word} (h : Mid T c ∅ s) (hc : s.curenv c = some cur)
    (hlive : (s.envs cur).envStatus ≠ .free) :
    wp (sysIpcRecv c dstva) (fun _ t => Mid T c ∅ t) (Leaves (Inv T)) s := by
  unfold sysIpcRecv
  simp only [wp_ite, wp_pure]
  refine ⟨fun _ => h, fun _ => ?_⟩
  rw [wp_bind, wp_ok (getCurenv_run hc)]
  simp only [wp_bind, wp_modify]
  refine schedYield_wp fun t ht => Mid.yields ?_ ht
  exact h.setEnv rfl rfl (by simp [hlive])

theorem syscall_mid {inp : Input} (call : Call) {w : Word} (h : Mid T c ∅ s)
    (hw : w.toNat = call.no) (hc : s.curenv c = some cur)
    (hlive : (s.envs cur).envStatus ≠ .free) (hno : ¬ Elsewhere s c cur)
    (hs : call.Safe s cur T c) :
    wp (syscall c inp w call.a1 call.a2 call.a3 call.a4 call.a5) (fun _ t => Mid T c ∅ t)
      (Leaves (Inv T)) s := by
  obtain ⟨no, a1, a2, a3, a4, a5⟩ := call
  unfold syscall
  simp only at hw ⊢
  rw [hw]
  -- every call but `sys_cputs` ends by turning its result into a word
  have ret : ∀ {x : K (Except Err Word)}, wp x (fun _ t => Mid T c ∅ t) (Leaves (Inv T)) s →
      wp (do return retCode (← x)) (fun _ t => Mid T c ∅ t) (Leaves (Inv T)) s :=
    fun hx => hx.bind fun _ _ ht => (wp_pure _).mpr ht
  split
  · refine wp.bind (Q := fun _ t => Mid T c ∅ t) ?_ fun _ t ht => (wp_pure _).mpr ht
    unfold sysCputs
    rw [wp_bind, wp_ok (getCurenv_run hc)]
    exact userMemAssert_mid h hc hno fun a ha => ha
  · exact (wp_pure _).mpr h
  · unfold sysGetenvid
    rw [wp_bind, wp_ok (getCurenv_run hc)]
    simpa only [wp_bind, wp_get, wp_pure] using h
  · exact ret (sysEnvDestroy_mid h hc fun e he => hs.destroy e ⟨rfl, he⟩)
  · refine ret (sysPageAlloc_mid h hc fun hT e he hva hperm hE => ?_)
    by_contra hne
    exact hs.tlb hT e (.alloc rfl he hva hperm hne) hE
  · exact ret (sysPageMap_mid h hc hs)
  · refine ret (sysPageUnmap_mid h hc fun hT e he hva hE => ?_)
    by_contra hne
    exact hs.tlb hT e (.unmap rfl he hva hne) hE
  · exact ret (sysExofork_mid h hc)
  · exact ret (sysEnvSetStatus_mid h hc hlive)
  · exact ret (sysEnvSetPgfaultUpcall_mid h hc)
  · rw [wp_bind]
    exact schedYield_wp fun t ht => h.yields ht
  · exact ret (sysIpcTrySend_mid h hc hlive hs)
  · exact ret (sysIpcRecv_mid h hc hlive)
  · exact (wp_pure _).mpr h

end

end Jos
