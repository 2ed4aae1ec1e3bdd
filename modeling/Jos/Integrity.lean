import Jos.Fault
import Jos.Isolation

/-!
  Integrity of memory.

  While a page stays mapped below `UTOP`, its bytes change only by the doing of environments that
  may write them: by a store, or by a page fault whose frame lands there. No system call, no
  interrupt and no other entry into the kernel changes them, whoever makes it. -/

namespace Jos

open Lib RefCount

/-- Some environment has frame `f` mapped below `UTOP`. -/
def UserMapped (s : KState) (f : Nat) : Prop := ∃ e i j, target s (.pte e i j) = some f

/-- A careful step that leaves frame `f` mapped. -/
def StaysMapped (f : Nat) (s : KState) (l : CpuIdx × Event) (t : KState) : Prop :=
  restrict (Careful True) Step s l t ∧ UserMapped s f ∧ UserMapped t f

/-- Address `a` of `e` is byte `off` of frame `f`, and `e` may write it. -/
structure MayWrite (s : KState) (e : EnvIdx) (a : Word) (f off : Nat) : Prop where
  frame : mappedAt s e a = some f
  offset : pgoff a = off
  rights : pteOf s e a &&& userWrite = userWrite

/-- Address `a` of `e` is byte `off` of frame `f`, and `e` may write it on CPU `c`: by its page table,
    or by what the CPU has cached of it. -/
structure MayStore (s : KState) (c : CpuIdx) (e : EnvIdx) (a : Word) (f off : Nat) : Prop where
  frame : mappedAt s e a = some f
  offset : pgoff a = off
  rights : pteOf s e a &&& userWrite = userWrite ∨ s.cachedWrite c (pgnum a) f = true

/-- The `UTrapframe` of a page fault in `cur`, which has an upcall for it, puts `b` into byte `off`
    of frame `f`. -/
def FaultByte (s : KState) (cur : EnvIdx) (inp : Input) (tf : Trapframe) (f off : Nat) (b : Byte) :
    Prop :=
  (s.envs cur).envPgfaultUpcall ≠ 0 ∧ ∃ k, k < utrapframeSize ∧
    MayWrite s cur (utfAddr tf.tfEsp + BitVec.ofNat 32 k) f off ∧
    (wordBytes (utrapframe inp.cr2 tf))[k]? = some b

/-- The environment that CPU `c` runs writes `b` to byte `off` of frame `f` in this step: it stores
    there, or the frame of its page fault is pushed there. -/
inductive Writes (s : KState) (c : CpuIdx) (f off : Nat) (b : Byte) : Event → Prop
  | store {cur : EnvIdx} {a : Word} {via : Option Nat} : (s.cpus c).mode = .user →
      s.curenv c = some cur → MayStore s c cur a f off → Writes s c f off b (.store a b via)
  | fault {cur : EnvIdx} {inp : Input} {tf : Trapframe} : InUser s c cur →
      tf.tfTrapno = tPgflt → FaultByte s cur inp tf f off b → Writes s c f off b (.trap inp tf)

/-- Mapped frames keep their contents, but for those that are tables at the end. -/
def Intact (s t : KState) : Prop := ∀ f, UserMapped s f → NotTable t f → t.mem f = s.mem f

/-- Each changed byte of such a frame is one that `W` allows. -/
def Accounted (W : Nat → Nat → Byte → Prop) (s t : KState) : Prop :=
  ∀ f off, UserMapped s f → NotTable t f → off < 4096 →
    (t.mem f).byte off ≠ (s.mem f).byte off → W f off ((t.mem f).byte off)

section

variable {s t u : KState} {c : CpuIdx} {cur e : EnvIdx} {L : List Nat} {R : KState → Prop}
  {f : Nat} {W : Nat → Nat → Byte → Prop} {inp : Input} {tf : Trapframe}

theorem PageInv.notTable (h : PageInv s L ∅) (hf : UserMapped s f) : NotTable s f := by
  obtain ⟨e, i, j, hf⟩ := hf
  exact h.notTable_of_pte hf

/-! ### Composition -/

theorem NotTable.congr (h : NotTable t f) (hd : ∀ e, (t.envs e).envPgdir = (s.envs e).envPgdir)
    (hk : t.kernPgdir = s.kernPgdir) (hm : t.mem = s.mem) : NotTable s f := by
  unfold NotTable at h ⊢
  rwa [target_congr hd hk hm, hk] at h

theorem Intact.of_mem (hm : t.mem = s.mem) : Intact s t := fun f _ _ => by rw [hm]

theorem Intact.refl (s : KState) : Intact s s := .of_mem rfl

/-- What only touches environments and CPUs may follow. -/
theorem Intact.congr (h : Intact s t) (hd : ∀ e, (u.envs e).envPgdir = (t.envs e).envPgdir)
    (hk : u.kernPgdir = t.kernPgdir) (hm : u.mem = t.mem) : Intact s u := by
  intro f hf hu
  rw [hm]
  exact h f hf (hu.congr hd hk hm)

theorem Intact.setEnv (h : Intact s t) {v : Env} (hv : v.envPgdir = (t.envs e).envPgdir) :
    Intact s (t.setEnv e v) := by
  refine h.congr (fun x => ?_) rfl rfl
  by_cases hx : x = e
  · subst hx
    simpa [KState.setEnv] using hv
  · simp [KState.setEnv, hx]

theorem Intact.runs (h : Intact s t) (hr : Runs c e t u) : Intact s u := by
  have hm := hr.mem
  obtain ⟨pd, -, rfl⟩ := hr
  have hp : Alike t (preempt c t) := preempt_alike
  refine h.congr (fun x => ?_) ?_ hm
  · rw [resume_envs, ← hp.dir x]
    split
    · rename_i hx
      rw [hx]
    · rfl
  · exact hp.limits.kernPgdir

theorem Intact.yields (h : Intact s t) (hy : Yields c t u) : Intact s u := by
  cases hy with
  | pick _ hr => exact h.runs hr
  | stay _ _ _ hr => exact h.runs hr
  | halt _ _ _ => exact h.congr (fun _ => rfl) rfl rfl

theorem Intact.returns (h : Intact s t) (hr : Returns c t u) : Intact s u := by
  cases hr with
  | stay _ _ hr => exact h.runs hr
  | yield _ hy => exact h.yields hy

/-- An update of environments and CPUs may come first. -/
theorem Intact.of_alike (ha : Alike s u) (h : Intact u t) : Intact s t := by
  intro f hf hn
  rw [h f ?_ hn, ha.mem]
  unfold UserMapped at hf ⊢
  rwa [ha.target]

/-- An edit of page tables, after a page was taken for it. -/
theorem Intact.of_edited {P : Idx → Idx → Prop} {o : Owner}
    (hm : ∀ f, UserMapped s f → u.mem f = s.mem f) (h : Edited o P u t) : Intact s t :=
  fun f hf hn => (h.data f hn).trans (hm f hf)

theorem Accounted.of_intact (h : Intact s t) : Accounted W s t := by
  intro f off hf hn _ hne
  rw [h f hf hn] at hne
  exact absurd rfl hne

theorem Accounted.of_alike {W' : Nat → Nat → Byte → Prop} (ha : Alike s u) (h : Accounted W u t)
    (hW : ∀ f off b, W f off b → W' f off b) : Accounted W' s t := by
  intro f off hf hn hoff hne
  refine hW _ _ _ (h f off ?_ hn hoff (by rwa [ha.mem]))
  unfold UserMapped at hf ⊢
  rwa [ha.target]

/-! ### System calls -/

theorem sysPageAlloc_intact (h : PageInv s L ∅) (hc : s.curenv c = some cur)
    {envid va perm : Word} :
    wp (sysPageAlloc c envid va perm) (fun _ t => Intact s t) (Leaves R) s := by
  unfold sysPageAlloc
  refine envid2env_bind hc (fun _ => (wp_pure _).mpr (.refl s)) fun e _ => ?_
  refine wp_ite.mpr ⟨fun _ => (wp_pure _).mpr (.refl s), fun hva => ?_⟩
  refine wp_ite.mpr ⟨fun _ => (wp_pure _).mpr (.refl s), fun _ => ?_⟩
  have hva' : vaOk va = true := by simpa using hva
  rcases h.alloc true with ⟨-, hrun⟩ | ⟨p, m, L', rfl, hrun, hm⟩
  · rw [wp_bind, wp_ok hrun]
    exact (wp_pure _).mpr (.refl s)
  -- a mapped frame is not free, so the page that is zeroed is another one
  have hold : ∀ f, UserMapped s f → m.mem f = s.mem f := by
    rintro f ⟨x, i, j, hf⟩
    refine hm.mem f ?_
    rintro rfl
    exact h.counted.not_target_of_free (List.mem_cons_self ..) _ hf
  rw [wp_bind, wp_ok hrun, wp_bind]
  refine getPgdir_wp fun d hd => ?_
  rw [wp_bind]
  rcases pageInsert_spec c perm hm.inv hd (pdx_of_vaOk hva') hm.managed hm.notFree hm.notTable with
    ⟨-, -, hins⟩ | ⟨t, hins, hmap⟩
  · rw [wp_ok hins, wp_bind, wp_ok hm.free, wp_pure]
    exact fun f hf _ => hold f hf
  · rw [wp_ok hins, wp_pure]
    exact .of_edited hold hmap.edit

theorem sysPageMap_intact (h : PageInv s L ∅) (hc : s.curenv c = some cur)
    {a1 a2 a3 a4 a5 : Word} :
    wp (sysPageMap c a1 a2 a3 a4 a5) (fun _ t => Intact s t) (Leaves R) s := by
  have stop : ∀ err : Err, wp (return .error err : K (Except Err Word))
      (fun _ t => Intact s t) (Leaves R) s := fun _ => (wp_pure _).mpr (.refl s)
  unfold sysPageMap
  refine envid2env_bind hc (fun _ => stop _) fun src _ => ?_
  refine envid2env_bind hc (fun _ => stop _) fun dst _ => ?_
  refine wp_ite.mpr ⟨fun _ => stop _, fun hva => wp_ite.mpr ⟨fun _ => stop _, fun _ => ?_⟩⟩
  simp only [not_or, Bool.not_eq_false] at hva
  rw [wp_bind]
  refine getPgdir_wp fun d hd => ?_
  rw [wp_bind]
  rcases pageLookup_run h hd (pdx_of_vaOk hva.1) with ⟨-, hrun⟩ | ⟨f, T, hf, -, hrun, -⟩
  · rw [wp_ok hrun]
    exact stop _
  rw [wp_ok hrun]
  simp only [wp_bind, wp_get]
  refine wp_ite.mpr ⟨fun _ => stop _, fun _ => ?_⟩
  rw [wp_bind]
  refine getPgdir_wp fun d' hd' => ?_
  obtain ⟨hM, hfree, hnt⟩ := insertable h hf
  rw [wp_bind]
  rcases pageInsert_spec c a5 h hd' (pdx_of_vaOk hva.2) hM (hfree L h) hnt with
    ⟨-, -, hins⟩ | ⟨t, hins, hmap⟩
  · rw [wp_ok hins]
    exact stop _
  · rw [wp_ok hins, wp_pure]
    exact .of_edited (fun _ _ => rfl) hmap.edit

theorem sysPageUnmap_intact (h : PageInv s L ∅) (hc : s.curenv c = some cur) {envid va : Word} :
    wp (sysPageUnmap c envid va) (fun _ t => Intact s t) (Leaves R) s := by
  unfold sysPageUnmap
  refine envid2env_bind hc (fun _ => (wp_pure _).mpr (.refl s)) fun e _ => ?_
  refine wp_ite.mpr ⟨fun _ => (wp_pure _).mpr (.refl s), fun hva => ?_⟩
  have hva' : vaOk va = true := by simpa using hva
  rw [wp_bind]
  refine getPgdir_wp fun d hd => ?_
  rw [wp_bind]
  rcases pageRemove_spec c h hd (pdx_of_vaOk hva') with ⟨-, hrun⟩ | ⟨f, t, -, hrun, hun⟩
  · rw [wp_ok hrun, wp_pure]
    exact .refl s
  · rw [wp_ok hrun, wp_pure]
    exact .of_edited (fun _ _ => rfl) hun.edit

/-- A send edits one entry of the receiver, and its record. -/
theorem ipcSendPage_intact (h : PageInv s L ∅) (hc : s.curenv c = some cur)
    {srcva perm : Word} (hsrc : srcva < utop) : wp (ipcSendPage c inp e srcva perm)
      (fun _ t => t.curenv c = some cur ∧ Intact s t) (Leaves R) s := by
  have stop : ∀ r : Except Err Unit, wp (return r : K (Except Err Unit))
      (fun _ t => t.curenv c = some cur ∧ Intact s t) (Leaves R) s :=
    fun _ => (wp_pure _).mpr ⟨hc, .refl s⟩
  unfold ipcSendPage
  rw [wp_bind, wp_ok (getCurenv_run hc), wp_bind]
  refine getPgdir_wp fun d hd => ?_
  rw [wp_bind]
  rcases pageLookup_run h hd (pdx_lt_utopPdx.mpr hsrc) with ⟨-, hrun⟩ | ⟨f, T, hf, -, hrun, -⟩
  · rw [wp_ok hrun]
    refine wp_ite.mpr ⟨fun _ => stop _, fun _ => ?_⟩
    cases inp.strayPte with
    | none => simp
    | some w => exact stop _
  rw [wp_ok hrun]
  refine wp_ite.mpr ⟨fun _ => stop _, fun _ => ?_⟩
  simp only [wp_bind, wp_get]
  refine wp_ite.mpr ⟨fun _ => stop _, fun _ => wp_ite.mpr ⟨fun _ => stop _, fun _ =>
    wp_ite.mpr ⟨fun hdst => ?_, fun _ => stop _⟩⟩⟩
  rw [wp_bind]
  refine getPgdir_wp fun d' hd' => ?_
  obtain ⟨hM, hfree, hnt⟩ := insertable h hf
  rw [wp_bind]
  rcases pageInsert_spec c perm h hd' (pdx_lt_utopPdx.mpr hdst) hM (hfree L h) hnt with
    ⟨-, -, hins⟩ | ⟨t, hins, hmap⟩
  · rw [wp_ok hins]
    exact stop _
  · rw [wp_ok hins]
    simp only [wp_bind, wp_modify, wp_pure]
    exact ⟨(congrFun hmap.edit.only.curenv c).trans hc,
      (Intact.of_edited (fun _ _ => rfl) hmap.edit).setEnv rfl⟩

theorem sysIpcTrySend_intact (h : PageInv s L ∅) (hc : s.curenv c = some cur)
    {a1 a2 a3 a4 : Word} :
    wp (sysIpcTrySend c inp a1 a2 a3 a4) (fun _ t => Intact s t) (Leaves R) s := by
  unfold sysIpcTrySend
  refine envid2env_bind hc (fun _ => (wp_pure _).mpr (.refl s)) fun e _ => ?_
  rw [wp_bind, wp_get]
  refine wp_ite.mpr ⟨fun _ => (wp_pure _).mpr (.refl s), fun _ => ?_⟩
  have finish : ∀ (r : Except Err Unit) t, t.curenv c = some cur ∧ Intact s t →
      wp (sysIpcTrySendRest c e a2 r) (fun _ t => Intact s t) (Leaves R) t := by
    rintro (err | x) t ⟨hct, ht⟩
    · exact (wp_pure _).mpr ht
    · simp only [sysIpcTrySendRest, ipcDeliver]
      rw [wp_bind, wp_bind, wp_ok (getCurenv_run hct)]
      simp only [wp_modify, wp_pure]
      exact ht.setEnv rfl
  refine wp_ite.mpr ⟨fun hsrc => ?_, fun _ => ?_⟩ <;> rw [wp_bind]
  · exact (ipcSendPage_intact h hc hsrc).mono finish fun _ _ hR => hR
  · exact (wp_pure _).mpr (finish (.ok ()) s ⟨hc, .refl s⟩)

theorem sysExofork_intact (h : PageInv s L ∅) (hc : s.curenv c = some cur) :
    wp (sysExofork c) (fun _ t => Intact s t) (Leaves R) s := by
  unfold sysExofork
  rw [wp_bind, wp_ok (getCurenv_run hc), wp_bind, wp_get, wp_bind]
  rcases envAlloc_spec h (s.envs cur).envId with
    ⟨-, err, hrun⟩ | ⟨e, p, m, t, hrun, hcr, -, -, -, -, L', rfl, -⟩
  · rw [wp_ok hrun]
    exact (wp_pure _).mpr (.refl s)
  · rw [wp_ok hrun]
    simp only [wp_bind, wp_modify, wp_get, wp_pure]
    have hkeep : Intact s t := by
      rintro f ⟨x, i, j, hf⟩ -
      refine hcr.mem f ?_
      rintro rfl
      exact h.counted.not_target_of_free (List.mem_cons_self ..) _ hf
    exact hkeep.setEnv rfl

theorem envFree_intact (h : PageInv s L ∅) :
    wp (envFree c e) (fun _ t => Intact s t) (Leaves R) s := by
  cases hd : (s.envs e).envPgdir with
  | none =>
    unfold envFree
    simp only [wp_bind, wp_get, wp_ite, wp_set, hd]
    exact ⟨fun _ => by simp, fun _ => by simp⟩
  | some d =>
    obtain ⟨t, hrun, hg, -⟩ := envFree_spec c h hd
    exact (wp_ok hrun).mpr fun f hf _ => hg.data f (h.notTable hf)

theorem envDestroy_intact (h : PageInv s L ∅) :
    wp (envDestroy c e) (fun _ t => Intact s t) (Leaves (Intact s)) s := by
  unfold envDestroy
  rw [wp_bind, wp_get]
  refine wp_ite.mpr ⟨fun _ => (wp_set _).mpr ((Intact.refl s).setEnv rfl), fun _ => ?_⟩
  rw [wp_bind]
  refine (envFree_intact h).mono (fun _ t ht => ?_) fun _ _ hR => hR
  rw [wp_bind, wp_get]
  refine wp_ite.mpr ⟨fun _ => ?_, fun _ => (wp_pure _).mpr ht⟩
  rw [wp_bind, wp_set]
  exact schedYield_wp fun u hu =>
    Intact.yields (t := t.setCurenv c none) (ht.congr (fun _ => rfl) rfl rfl) hu

theorem alike_check (s : KState) (a : Word) : Alike s { s with userMemCheckAddr := a } :=
  ⟨rfl, rfl, rfl, ⟨rfl, rfl, rfl, rfl, rfl⟩, rfl, fun _ => rfl, fun _ => rfl, fun _ => Iff.rfl⟩

theorem userMemAssert_intact (h : PageInv s L ∅) {va len perm : Word} :
    wp (userMemAssert c e va len perm) (fun _ t => Intact s t) (Leaves (Intact s)) s := by
  unfold userMemAssert
  rw [wp_bind]
  refine userMemCheck_wp.mono (fun r t ht => ?_) fun x t hR hx => hR hx
  obtain ⟨a, rfl⟩ := ht
  have ha := alike_check s a
  cases r with
  | ok _ => exact (wp_pure _).mpr (.of_mem rfl)
  | error err =>
    have hP := pageInv_congr h ha.mem ha.dir ha.pages ha.freeList ha.limits
    exact (envDestroy_intact hP).mono (fun _ _ ht => .of_alike ha ht)
      fun x t hR hx => .of_alike ha (hR hx)

theorem syscall_intact {no a1 a2 a3 a4 a5 : Word} (h : PageInv s L ∅)
    (hc : s.curenv c = some cur) : wp (syscall c inp no a1 a2 a3 a4 a5)
      (fun _ t => Intact s t) (Leaves (Intact s)) s := by
  have ret : ∀ {x : K (Except Err Word)}, wp x (fun _ t => Intact s t) (Leaves (Intact s)) s →
      wp (do return retCode (← x)) (fun _ t => Intact s t) (Leaves (Intact s)) s :=
    fun hx => hx.bind fun _ _ ht => (wp_pure _).mpr ht
  unfold syscall
  split
  · unfold sysCputs
    rw [wp_bind, wp_bind, wp_ok (getCurenv_run hc)]
    exact (userMemAssert_intact h).mono (fun _ t ht => (wp_pure _).mpr ht) fun _ _ hR => hR
  · exact (wp_pure _).mpr (.refl s)
  · unfold sysGetenvid
    rw [wp_bind, wp_ok (getCurenv_run hc)]
    simp only [wp_bind, wp_get, wp_pure]
    exact .refl s
  · refine ret ?_
    unfold sysEnvDestroy
    refine envid2env_bind hc (fun _ => (wp_pure _).mpr (.refl s)) fun e _ => ?_
    rw [wp_bind]
    exact (envDestroy_intact h).mono (fun _ t ht => (wp_pure _).mpr ht) fun _ _ hR => hR
  · exact ret (sysPageAlloc_intact h hc)
  · exact ret (sysPageMap_intact h hc)
  · exact ret (sysPageUnmap_intact h hc)
  · exact ret (sysExofork_intact h hc)
  · refine ret ?_
    unfold sysEnvSetStatus
    cases statusOfWord a2 with
    | none => exact (wp_pure _).mpr (.refl s)
    | some st =>
      refine envid2env_bind hc (fun _ => (wp_pure _).mpr (.refl s)) fun e _ => ?_
      simp only [wp_bind, wp_modify, wp_pure]
      exact (Intact.refl s).setEnv rfl
  · refine ret ?_
    unfold sysEnvSetPgfaultUpcall
    refine envid2env_bind hc (fun _ => (wp_pure _).mpr (.refl s)) fun e _ => ?_
    simp only [wp_bind, wp_modify, wp_pure]
    exact (Intact.refl s).setEnv rfl
  · rw [wp_bind]
    exact schedYield_wp fun t ht => (Intact.refl s).yields ht
  · exact ret (sysIpcTrySend_intact h hc)
  · refine ret ?_
    unfold sysIpcRecv
    refine wp_ite.mpr ⟨fun _ => (wp_pure _).mpr (.refl s), fun _ => ?_⟩
    rw [wp_bind, wp_ok (getCurenv_run hc), wp_bind, wp_modify, wp_bind]
    have hrecv : Intact s (receiving s cur a1) := (Intact.refl s).setEnv rfl
    exact schedYield_wp fun t ht => hrecv.yields ht
  · exact (wp_pure _).mpr (.refl s)

/-! ### Traps -/

theorem trapDispatch_intact (h : PageInv s L ∅) (hc : s.curenv c = some cur)
    (hno : tf.tfTrapno ≠ tPgflt) :
    wp (trapDispatch c inp tf) (fun _ t => Intact s t) (Leaves (Intact s)) s := by
  unfold trapDispatch
  refine wp_ite.mpr ⟨fun hx => absurd hx hno, fun _ => wp_ite.mpr ⟨fun _ => by simp, fun _ => ?_⟩⟩
  refine wp_ite.mpr ⟨fun _ => ?_, fun _ => ?_⟩
  · rw [wp_bind, wp_ok (getCurenv_run hc), wp_bind]
    refine (syscall_intact h hc).mono (fun w t ht => ?_) fun _ _ hR => hR
    exact (wp_modify _).mpr (ht.setEnv rfl)
  refine wp_ite.mpr ⟨fun _ => schedYield_wp fun t hy => (Intact.refl s).yields hy, fun _ => ?_⟩
  refine wp_ite.mpr ⟨fun _ => by simp, fun _ => ?_⟩
  rw [wp_bind, wp_ok (getCurenv_run hc)]
  exact envDestroy_intact h

/-- A byte of a frame that changes when another one is replaced. -/
theorem setFrame_changed {g off n : Nat} {b : Byte} (hoff : off < 4096) (hn : n < 4096)
    (hne : ((s.setFrame g ((s.mem g).setByte n b)).mem f).byte off ≠ (s.mem f).byte off) :
    f = g ∧ n = off ∧ ((s.setFrame g ((s.mem g).setByte n b)).mem f).byte off = b := by
  rw [KState.setFrame_mem] at hne ⊢
  by_cases hf : f = g
  · subst hf
    rw [Function.update_self, Page.byte_setByte _ hn hoff] at hne ⊢
    by_cases ho : off = n
    · exact ⟨rfl, ho.symm, if_pos ho⟩
    · rw [if_neg ho] at hne
      exact absurd rfl hne
  · rw [Function.update_of_ne hf] at hne
    exact absurd rfl hne

/-- Bytes stored on user pages. The induction is on the bytes; stores never hit a page table, so
    all later addresses lead where they led before. -/
theorem storeBytes_accounted : ∀ (bs : List Byte) (va : Word) {s : KState}, PageInv s L ∅ →
    (s.envs cur).envPgdir = some (s.cr3 c) → va.toNat + bs.length ≤ utop.toNat →
    wp (storeBytes c va bs) (fun _ t => ∀ f off, off < 4096 →
      (t.mem f).byte off ≠ (s.mem f).byte off → ∃ k, bs[k]? = some ((t.mem f).byte off) ∧
        mappedAt s cur (va + BitVec.ofNat 32 k) = some f ∧
        pgoff (va + BitVec.ofNat 32 k) = off) (Leaves R) s
  | [], va, s, _, _, _ => by
    unfold storeBytes
    exact (wp_pure _).mpr fun _ _ _ hne => absurd rfl hne
  | b :: bs, va, s, h, hd, hle => by
    have hutop := utop.isLt
    rw [List.length_cons] at hle
    have hva : va < utop := by
      rw [BitVec.lt_def]
      omega
    have hz : va + BitVec.ofNat 32 0 = va := BitVec.add_zero va
    have hnext : ∀ k, va + 1 + BitVec.ofNat 32 k = va + BitVec.ofNat 32 (k + 1) := by
      intro k
      rw [Nat.add_comm k 1, BitVec.ofNat_add, ← BitVec.add_assoc]
      rfl
    have hva1 : (va + 1).toNat = va.toNat + 1 := toNat_add_ofNat (k := 1) (by omega)
    unfold storeBytes storeByte
    simp only [wp_bind, wp_get]
    cases hf : walk s.mem (s.cr3 c) (pgnum va) with
    | none => simp
    | some g =>
      simp only [wp_set]
      rw [walk_user hd hva] at hf
      have hnt : NotTable s g := h.notTable_of_pte hf
      refine (storeBytes_accounted bs (va + 1) (h.setFrame hnt _) hd (by omega)).mono
        (fun _ t ht => ?_) fun _ _ hR => hR
      intro f off hoff hne
      by_cases hlast : (t.mem f).byte off =
          ((s.setFrame g ((s.mem g).setByte (pgoff va) b)).mem f).byte off
      · rw [hlast] at hne ⊢
        obtain ⟨rfl, hn, hb⟩ := setFrame_changed hoff (pgoff_lt va) hne
        exact ⟨0, by rw [hb]; rfl, by rw [hz]; exact hf, by rw [hz]; exact hn⟩
      · obtain ⟨k, hb, hk, hn⟩ := ht f off hoff hlast
        rw [hnext] at hk hn
        rw [mappedAt, hnt.target_setFrame] at hk
        exact ⟨k + 1, hb, hk, hn⟩

/-- A page of the frame that was found to fit may be written. -/
theorem FrameFits.rights {d k : Nat} {esp : Word} (h : FrameFits s d esp)
    (hd : (s.envs cur).envPgdir = some d) (hk : k < utrapframeSize) :
    pteOf s cur (utfAddr esp + BitVec.ofNat 32 k) &&& userWrite = userWrite := by
  have hr := utf_range esp
  have hutop : utop.toNat = 4005560320 := by decide
  unfold utrapframeSize at hk
  have hval : (utfAddr esp + BitVec.ofNat 32 k).toNat = (utfAddr esp).toNat + k :=
    toNat_add_ofNat (by omega)
  have ha : BitVec.ofNat 32 ((utfAddr esp).toNat + k) = utfAddr esp + BitVec.ofNat 32 k := by
    rw [← hval, BitVec.ofNat_toNat, BitVec.setWidth_eq]
  have hlt : utfAddr esp + BitVec.ofNat 32 k < utop := by
    rw [BitVec.lt_def, hval]
    omega
  obtain ⟨-, T, hT, hpte, hperm⟩ := h ((utfAddr esp).toNat + k) (by omega) (by omega)
  rw [ha] at hT hpte hperm
  have htab : tabFrame s (some cur) (pdx (utfAddr esp + BitVec.ofNat 32 k)) = some T := by
    rw [tabFrame_of_dir (o := some cur) hd (pdx_lt_utopPdx.mpr hlt), hT]
  have hor : ∀ w : Word, w &&& userWrite = (w &&& pteP) ||| (w &&& (pteU ||| pteW)) := fun w => by
    rw [← BitVec.and_or_distrib_left]
    rfl
  have hP : s.mem T (ptx (utfAddr esp + BitVec.ofNat 32 k)) &&& pteP = pteP := by
    have hne := fun h0 => hpte (entryFrame_eq_none.mpr h0)
    rw [show pteP = BitVec.twoPow 32 0 from rfl, BitVec.and_twoPow] at hne ⊢
    split
    · rfl
    · rename_i hbit
      exact absurd (if_neg hbit) hne
  rw [pteOf, pteAt_of_tab htab, hor, hP, hperm]
  rfl

/-- The end of the current environment changes no mapped page. -/
theorem Killed.intact {x : K Unit} {Q : Unit → KState → Prop} (h : PageInv s L ∅)
    (hk : Killed s c cur (x u)) : wp x Q (Leaves (Intact s)) u := by
  obtain ⟨v, -, hmem, hrun⟩ := hk
  rw [wp_of_eq hrun]
  refine schedYield_wp fun t hy f hf _ => ?_
  rw [hy.mem]
  exact hmem f (h.notTable hf)

theorem pageFaultHandler_accounted (h : Core ∅ s) (hn : NoStale s c inp) (hc : s.curenv c = some cur)
    (hd : (s.envs cur).envPgdir = some (s.cr3 c)) : wp (pageFaultHandler c inp tf)
      (fun _ _ => False) (Leaves (Accounted (FaultByte s cur inp tf) s)) s := by
  obtain ⟨L, hL⟩ := h.page
  have hdead : ∀ {Q : Unit → KState → Prop} {u : KState}, Alike s u → u.curenv c = some cur →
      wp (envDestroy c cur) Q (Leaves (Accounted (FaultByte s cur inp tf) s)) u :=
    fun ha hcu => ((envDestroy_killed hL hd ha hcu).intact hL).mono (fun _ _ hQ => hQ)
      fun _ _ hR hx => .of_intact (hR hx)
  unfold pageFaultHandler
  refine wp_ite.mpr ⟨fun _ => by simp [wp_bind], fun _ => ?_⟩
  rw [wp_bind, wp_ok (getCurenv_run hc), wp_bind, wp_get]
  refine wp_ite.mpr ⟨fun hup => ?_, fun _ => hdead (.refl s) hc⟩
  rw [wp_bind]
  rcases frame_check (c := c) h hd tf.tfEsp with ⟨hfit, hrun⟩ | ⟨-, a, hrun⟩
  · rw [wp_ok hrun, wp_bind, wp_of_eq (storeBytesCached_eq hL hn hd (utrapframe_below ..))]
    refine (storeBytes_accounted _ _ hL hd (utrapframe_below ..)).mono (fun _ u hu => ?_)
      fun _ _ hR => hR
    rw [wp_bind, wp_modify, wp_bind]
    refine envRun_wp fun t ht => ?_
    intro f off _ _ hoff hne
    rw [ht.mem] at hne ⊢
    obtain ⟨k, hk, hm, hn⟩ := hu f off hoff hne
    have hlen : (wordBytes (utrapframe inp.cr2 tf)).length = utrapframeSize := by
      rw [wordBytes_length]
      rfl
    have hlt : k < utrapframeSize := hlen ▸ (List.getElem?_eq_some_iff.mp hk).1
    exact ⟨hup, k, hlt, ⟨hm, hn, hfit.rights hd hlt⟩, hk⟩
  · rw [wp_of_eq hrun]
    exact hdead (alike_check s a) hc

theorem saved_mayWrite {a : Word} {off : Nat} (h : MayWrite (saved c cur tf s) e a f off) :
    MayWrite s e a f off := by
  have ha : Alike s (saved c cur tf s) := saved_alike tf
  obtain ⟨hf, hn, hr⟩ := h
  unfold mappedAt at hf
  unfold pteOf at hr
  rw [ha.target] at hf
  rw [ha.tables.2] at hr
  exact ⟨hf, hn, hr⟩

/-- Every trap leaves mapped pages alone, but for the frame of a page fault. -/
theorem trap_accounted {T : Prop} (h : Inv T s) (hcu : T ∨ Current s c (.trap inp tf))
    (ha : TrapAllowed s c tf) : wp (trap c inp tf) (fun _ _ => False)
      (Leaves (Accounted (fun f off b => Writes s c f off b (.trap inp tf)) s)) s := by
  obtain ⟨L, hL⟩ := h.core.page
  rcases ha with ⟨hm, hcs⟩ | ⟨hm, hcs, hirq⟩
  · obtain ⟨cur, hcur, hd⟩ := (h.cpus c).running hm
    have hn : NoStale s c inp := .of_safe (h.cpus c) hm hcu
    by_cases hk : CallersOk s c inp tf
    case neg => exact (wp_error (trap_faults hcs hcur hk)).mpr (by simp)
    by_cases hdy : (s.envs cur).envStatus = .dying
    · exact ((trap_marked hL hd hcs hcur hk hdy).intact hL).mono (fun _ _ hf => hf)
        fun _ _ hR hx => .of_intact (hR hx)
    have hal : Alike s (saved c cur tf s) := saved_alike tf
    have hP : PageInv (saved c cur tf s) L ∅ :=
      pageInv_congr hL hal.mem hal.dir hal.pages hal.freeList hal.limits
    have hcur' : (saved c cur tf s).curenv c = some cur := (saved_curenv tf c).trans hcur
    rw [wp_of_eq (trap_user hcs hcur hk hdy), wp_bind]
    by_cases hno : tf.tfTrapno = tPgflt
    · have hrec : (saved c cur tf s).envs cur = { s.envs cur with envTf := tf } := by
        simp [saved, KState.setEnv, KState.setCpu]
      have hdisp : trapDispatch c inp tf = pageFaultHandler c inp tf := by
        unfold trapDispatch
        rw [if_pos hno]
      rw [hdisp]
      refine (pageFaultHandler_accounted (h.core.alike hal)
        (hn.congr (show (saved c cur tf s).mem = s.mem from rfl) rfl rfl) hcur' (by rw [hrec]; exact hd)).mono
        (fun _ _ hf => hf.elim) fun x t hR hx => .of_alike hal (hR hx) fun f off b hb => ?_
      obtain ⟨hup, k, hk, hmay, hbyte⟩ := hb
      rw [hrec] at hup
      exact .fault ⟨hm, hcur, hdy⟩ hno ⟨hup, k, hk, saved_mayWrite hmay, hbyte⟩
    · refine (trapDispatch_intact hP hcur' hno).mono (fun _ t ht => ?_) fun x t hR hx => ?_
      · exact trapReturn_wp fun u hu => .of_intact (.of_alike hal (ht.returns hu))
      · exact .of_intact (.of_alike hal (hR hx))
  · -- an interrupt that wakes a halted CPU
    have h3 : ¬ tf.tfCs &&& 3 = 3 := by
      rw [hcs]
      decide
    obtain ⟨h1, h2, h4⟩ := ne_of_irq hirq
    unfold trap
    simp only [wp_bind, wp_modify, if_neg h3, trapDispatch, if_neg h1, if_neg h2, if_neg h4]
    have hstart : Intact s (started c s) := .of_mem rfl
    refine wp_ite.mpr ⟨fun _ => schedYield_wp fun t hy => ?_, fun _ => ?_⟩
    · exact .of_intact (hstart.yields hy)
    · rw [if_pos hcs]
      simp

/-! ### Steps and runs -/

/-- User code stores only where it may. -/
theorem store_mayStore {T : Prop} {va : Word} {b : Byte} {via : Option Nat} {g : Nat} (h : Inv T s)
    (hcu : T ∨ Current s c (.store va b via)) (hm : (s.cpus c).mode = .user)
    (hg : storeFrame s c va via = some g) :
    ∃ cur, s.curenv c = some cur ∧ MayStore s c cur va g (pgoff va) := by
  obtain ⟨L, hL⟩ := h.core.page
  obtain ⟨cur, hcur, htarget⟩ := storeFrame_target h hcu hm hg
  obtain ⟨cur', hcur', hd⟩ := (h.cpus c).running hm
  obtain rfl : cur = cur' := Option.some.inj (hcur.symm.trans hcur')
  refine ⟨cur, hcur, htarget, rfl, ?_⟩
  rcases viaTlb_cases hg with hacc | hv
  · refine Or.inl ?_
    obtain ⟨T, htab, hT, -⟩ := hL.mapped hd htarget
    rw [pteOf, pteAt_of_tab htab, ← (entryFrame_eq_some.mp hT).2]
    simp only [userAccess, userWalk] at hacc
    split at hacc
    · rename_i hneed
      exact hneed.2
    · cases hacc
  · exact Or.inr hv

theorem step_accounted {T : Prop} {ev : Event} (h : Inv T s) (hcu : T ∨ Current s c ev)
    (hst : Step s (c, ev) t) :
    Accounted (fun f off b => Writes s c f off b ev) s t := by
  unfold Step step at hst
  cases ev with
  | trap inp tf =>
    simp only at hst
    split at hst
    · rename_i ha
      exact (trap_accounted h hcu ha).error (enter_eq_some.mp hst) rfl
    · cases hst
  | store va b via =>
    simp only at hst
    split at hst
    · rename_i hm
      split at hst
      · cases hst
      · rename_i g hg
        split at hst
        · cases hst
          obtain ⟨cur, hcur, hmay⟩ := store_mayStore h hcu hm hg
          intro f off _ _ hoff hne
          obtain ⟨rfl, rfl, hb⟩ := setFrame_changed hoff (pgoff_lt va) hne
          rw [hb]
          exact .store hm hcur hmay
        · cases hst
    · cases hst
  | start =>
    simp only at hst
    split at hst
    · have hwp : wp (schedYield c) (fun _ _ => False)
          (Leaves (Accounted (fun f off b => Writes s c f off b .start) s)) s :=
        schedYield_wp fun _ hy => .of_intact ((Intact.refl s).yields hy)
      exact hwp.error (enter_eq_some.mp hst) rfl
    · cases hst

/-- Memory integrity: in every careful run, each byte of a page that stays mapped below `UTOP` has
    its old value, or it was put there by the last step that changed it, for the environment that
    this step's CPU was running, which could write it at that moment. -/
theorem integrity {p : BootParams} {ls ls' : List (CpuIdx × Event)} {off : Nat}
    (h : BootRun (Careful True) p ls s) (hr : Run (StaysMapped f) s ls' t) (hoff : off < 4096) :
    (t.mem f).byte off = (s.mem f).byte off ∨
      ∃ ls₁ c ev ls₂ u w, ls' = ls₁ ++ (c, ev) :: ls₂ ∧ Run (StaysMapped f) s ls₁ u ∧
        Step u (c, ev) w ∧ Writes u c f off ((t.mem f).byte off) ev ∧
        Run (fun s l t => StaysMapped f s l t ∧ (t.mem f).byte off = (s.mem f).byte off)
          w ls₂ t := by
  obtain ⟨hx, hinv⟩ := careful_run h
  rcases hr.last_change fun s => (s.mem f).byte off with
    hsame | ⟨ls₁, ⟨c, ev⟩, ls₂, u, w, rfl, hu, hst, hne, hw⟩
  · exact Or.inl hsame.unchanged
  · have hkeep : ∀ s l t, Exclusive Every s ∧ Inv True s → StaysMapped f s l t →
        Exclusive Every t ∧ Inv True t := fun _ _ _ hI hst =>
      ⟨hI.1.step hst.1.1.1 hst.1.2, step_inv hI.2 (hI.1.safe hst.1.1) hst.1.2⟩
    obtain ⟨hxu, hu'⟩ := hu.invariant hkeep ⟨hx, hinv⟩
    obtain ⟨L, hL⟩ := (hkeep u _ w ⟨hxu, hu'⟩ hst).2.core.page
    refine Or.inr ⟨ls₁, c, ev, ls₂, u, w, rfl, hu, hst.1.2, ?_, hw⟩
    have hnow : (t.mem f).byte off = (w.mem f).byte off := hw.unchanged
    rw [hnow]
    exact step_accounted hu' (.inl trivial) hst.1.2 f off hst.2.1 (hL.notTable hst.2.2) hoff hne

/-! ### An instance -/

/-- The only environment allocates a page. -/
theorem Childless.allocs (h : Childless s) (inp : Input) :
    ∃ t f, restrict (Careful True) Step s (0, .trap inp (callFrame 4 0 wildVa 7)) t ∧ ParentOn t ∧
      (∀ k, k ≠ 0 → (t.cpus k).mode ≠ .user) ∧ UserMapped t f := by
  have halone := h.alone h.waits
  set m := saved 0 0 (callFrame 4 0 wildVa 7) s with hm
  have hma : Alike s m := saved_alike _
  obtain ⟨L, hL, hlen⟩ := h.room
  have hLm := pageInv_congr hL hma.mem hma.dir hma.pages hma.freeList hma.limits
  have hc : m.curenv 0 = some 0 := (saved_curenv _ 0).trans h.user.current
  have hl : lookupEnv m 0 0 true = some 0 := rfl
  obtain ⟨Le, hLe⟩ := h.inv.core.envs
  obtain ⟨d, hd⟩ : ∃ d, (s.envs 0).envPgdir = some d :=
    Option.ne_none_iff_exists'.mp (eligible_dir hLe (Or.inr h.running))
  rcases sysPageAlloc_run hLm hc hl ((hma.dir 0).trans hd) (show vaOk wildVa = true by decide)
    (show permOk 7 = true by decide) with
    ⟨rfl, -⟩ | ⟨u, -, hlt, -⟩ | ⟨f, m', u, L', -, hrun, rfl, htk, hmap⟩
  · simp at hlen
  · unfold tablesMissing at hlt
    split at hlt <;> omega
  have hsys : syscall 0 inp 4 0 wildVa 7 0 0 m = .ok 0 u := by
    simp only [syscall]
    rw [show (4 : Word).toNat = 4 from rfl]
    simp only [run_bind, hrun]
    rfl
  have ho : PmOnly m u := htk.only.trans hmap.edit.only
  have hsafe : (Call.ofTf (callFrame 4 0 wildVa 7)).Safe m 0 True 0 := by
    have hins : ∀ {x va f}, ¬ (Call.ofTf (callFrame 4 0 wildVa 7)).Inserts m 0 x va f := by
      rintro x va f (⟨hno, -⟩ | ⟨⟨hno, -⟩, -⟩) <;> cases hno
    refine ⟨fun e he => (by cases he.1), fun e he => (by cases he.1),
      fun e va f hi => absurd hi hins, fun _ e _ hx => ?_⟩
    obtain ⟨k, hk, hmode, -⟩ := (elsewhere_saved _ e).mp hx
    exact halone k hk hmode
  obtain ⟨t, hst, ht, -, ha, -⟩ := h.called inp (callFrame 4 0 wildVa 7) rfl
    (callFrame_ebp _ _ _ _) rfl hsys hsafe ho.cpus (by rw [ho.envs]) fun e he => by
      rw [ho.envs, hm, saved_envs, if_neg (by rintro rfl; exact absurd he (by decide))]
      exact h.rest e he
  obtain ⟨hshow, -⟩ := htk.mapped hmap (by decide)
  refine ⟨t, f, ⟨h.careful halone hsafe, hst⟩, ht, fun k hk => ?_, 0, pdx wildVa,
    ptx wildVa, ?_⟩
  · rw [step_cpus_of_ne hst hk]
    exact halone k hk
  · rw [ha.target]
    exact hshow.frame

/-- The only environment allocates a page and asks for its id: the page stays as it was. -/
theorem integrity_demo : ∃ ls s f ls' t, BootRun (Careful True) oneProgram ls s ∧
    Run (StaysMapped f) s ls' t ∧ ls' ≠ [] ∧
    ∀ off, off < 4096 → (t.mem f).byte off = (s.mem f).byte off := by
  obtain ⟨s0, hboot, h0⟩ := oneProgram_boot
  obtain ⟨s, f, hst, hs, halone, hf⟩ := h0.allocs .plain
  have hrun : BootRun (Careful True) oneProgram
      [(0, .trap .plain (callFrame 4 0 wildVa 7))] s := ⟨s0, hboot, .single hst⟩
  set m := saved 0 0 (callFrame 2 0 0 0) s with hm
  have hc : m.curenv 0 = some 0 := (saved_curenv _ 0).trans hs.user.current
  obtain ⟨t, hst', -, -, -, ha, -⟩ := hs.returns .plain (callFrame 2 0 0 0) rfl
    (callFrame_ebp _ _ _ _) rfl (getenvid_run hc .plain) rfl rfl
  have hcare : Careful True s (0, .trap .plain (callFrame 2 0 0 0)) := careful_of_no (by decide)
  have hft : UserMapped t f := by
    unfold UserMapped at hf ⊢
    rw [((saved_alike _).trans ha).target]
    exact hf
  have hr : Run (StaysMapped f) s [(0, .trap .plain (callFrame 2 0 0 0))] t :=
    .single ⟨⟨hcare, hst'⟩, hf, hft⟩
  refine ⟨_, s, f, _, t, hrun, hr, by simp, fun off hoff => ?_⟩
  rcases integrity hrun hr hoff with hsame | ⟨ls₁, c, ev, ls₂, u, w, hls, -, -, hw, -⟩
  · exact hsame
  · have hev : ev = .trap .plain (callFrame 2 0 0 0) := by
      have hmem : (c, ev) ∈ [((0 : CpuIdx), Event.trap .plain (callFrame 2 0 0 0))] := by
        rw [hls]
        simp
      exact (Prod.mk.inj (List.mem_singleton.mp hmem)).2
    subst hev
    cases hw with
    | fault _ hno _ => exact absurd hno (by decide)

end

end Jos
