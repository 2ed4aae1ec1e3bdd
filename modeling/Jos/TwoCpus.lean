import Jos.Exclusive
import Jos.MapCalls

/-!
  A parent on one CPU and its child on another.

  Most of what goes wrong between two CPUs needs no more than this: the parent makes system calls on
  a child that the other CPU is running. -/

namespace Jos

open Lib RefCount

/-- One program, two CPUs. -/
def oneProgram : BootParams :=
  { demo with
    bsp := 0
    images := [demoImage 0x800020] }

/-- The frame of a system call. -/
def callFrame (no a1 a2 a3 : Word) : Trapframe :=
  { Trapframe.zero with
    tfTrapno := tSyscall
    tfCs := gdUt ||| 3
    tfRegs := { PushRegs.zero with regEax := no, regEdx := a1, regEcx := a2, regEbx := a3 } }

theorem callFrame_ebp (no a1 a2 a3 : Word) : (callFrame no a1 a2 a3).tfRegs.regEbp < ulim := by
  show (0 : Word) < ulim
  decide

/-- `sys_env_set_status` is called on no environment that is marked as dying or waits for a
    message. -/
def SetsPlain (s : KState) (l : CpuIdx × Event) : Prop :=
  ∀ inp tf cur e, l.2 = .trap inp tf → InUser s l.1 cur → tf.tfTrapno = tSyscall →
    SetsStatus s cur (Call.ofTf tf) e →
      (s.envs e).envStatus ≠ .dying ∧ (s.envs e).envIpcRecving = false

/-- A step that is careful and sets a status in plain cases only. -/
def Plainly (s : KState) (l : CpuIdx × Event) : Prop := Careful True s l ∧ SetsPlain s l

/-- CPU 0 runs the first environment; no other CPU runs anything but the second one. -/
structure ParentOn (s : KState) : Prop where
  inv : Inv True s
  user : InUser s 0 0
  running : (s.envs 0).envStatus = .running
  id : (s.envs 0).envId = 4096
  others : ∀ k, k ≠ 0 → (s.cpus k).mode = .user → k = 1 ∧ s.curenv 1 = some 1
  rest : ∀ e : EnvIdx, 1 < e.val → (s.envs e).envStatus = .free

/-- The second environment is its child, with status `st`. -/
structure Pair (s : KState) (st : EnvStatus) : Prop extends ParentOn s where
  status : (s.envs 1).envStatus = st
  childId : (s.envs 1).envId = 4097
  parentId : (s.envs 1).envParentId = 4096

section

variable {c : CpuIdx} {cur e : EnvIdx} {s t u : KState} {tf : Trapframe} {inp : Input} {w : Word}
  {st : EnvStatus}

/-- What `env_run` leaves to the other CPUs. -/
theorem resume_others {d : Nat} {k : CpuIdx} (hk : k ≠ c) :
    (resume c e d s).cr3 k = s.cr3 k ∧ (resume c e d s).tlb k = s.tlb k := by
  simp [resume, KState.setCurenv, KState.setEnv, KState.setCpu, KState.lcr3, hk]

theorem preempt_others (c k : CpuIdx) (s : KState) :
    (preempt c s).cr3 k = s.cr3 k ∧ (preempt c s).tlb k = s.tlb k := by
  unfold preempt
  split
  · exact ⟨rfl, rfl⟩
  · split <;> exact ⟨rfl, rfl⟩

theorem Runs.others (h : Runs c e s t) {k : CpuIdx} (hk : k ≠ c) :
    t.cr3 k = s.cr3 k ∧ t.tlb k = s.tlb k := by
  obtain ⟨pd, -, rfl⟩ := h
  obtain ⟨h1, h2⟩ := preempt_others c k s
  obtain ⟨h3, h4⟩ := resume_others (e := e) (s := preempt c s) (d := pd) hk
  exact ⟨h3.trans h1, h4.trans h2⟩

/-- A system call that returns, as a step. -/
theorem step_called (hu : InUser s c cur) (hcs : tf.tfCs = gdUt ||| 3)
    (hk : CallersOk s c inp tf) (hno : tf.tfTrapno = tSyscall)
    (hsys : syscall c inp tf.tfRegs.regEax tf.tfRegs.regEdx tf.tfRegs.regEcx tf.tfRegs.regEbx
      tf.tfRegs.regEdi tf.tfRegs.regEsi (saved c cur tf s) = .ok w u)
    (hret : Returns c (answered u cur w) t) : Step s (c, .trap inp tf) t := by
  have hc' : (saved c cur tf s).curenv c = some cur := (saved_curenv _ c).trans hu.current
  have hdisp : trapDispatch c inp tf (saved c cur tf s) = .ok () (answered u cur w) := by
    unfold trapDispatch
    rw [if_neg (by rw [hno]; decide), if_neg (by rw [hno]; decide), if_pos hno]
    simp only [run_bind, getCurenv_run hc', hsys, run_modify]
    rfl
  have htrap : trap c inp tf s = .error .leave t := by
    rw [trap_user hcs hu.current hk hu.live, run_bind, hdisp]
    exact trapReturn_run hret
  have ha : TrapAllowed s c tf := Or.inl ⟨hu.mode, hcs⟩
  unfold Step step
  simp only
  rw [if_pos ha]
  exact enter_eq_some.mpr htrap

/-- What a call that returns `w` leaves of the record `v` of its caller. -/
structure Answers (v v' : Env) (w : Word) : Prop where
  status : v'.envStatus = .running
  id : v'.envId = v.envId
  parentId : v'.envParentId = v.envParentId
  recving : v'.envIpcRecving = v.envIpcRecving
  eax : v'.envTf.tfRegs.regEax = w

/-- Nothing but the caller's record changes on the way back to it. -/
theorem call_returns (h : Inv True s) (hu : InUser s c cur)
    (hrun : (s.envs cur).envStatus = .running) (inp : Input) (tf : Trapframe)
    (hcs : tf.tfCs = gdUt ||| 3) (hebp : tf.tfRegs.regEbp < ulim) (hno : tf.tfTrapno = tSyscall)
    (hsys : syscall c inp tf.tfRegs.regEax tf.tfRegs.regEdx tf.tfRegs.regEcx tf.tfRegs.regEbx
      tf.tfRegs.regEdi tf.tfRegs.regEsi (saved c cur tf s) = .ok w u)
    (hcpus : u.cpus = (saved c cur tf s).cpus) (hcur : u.envs cur = (saved c cur tf s).envs cur) :
    ∃ t, Step s (c, .trap inp tf) t ∧ InUser t c cur ∧ Answers (s.envs cur) (t.envs cur) w ∧
      (∀ x, x ≠ cur → t.envs x = u.envs x) ∧ Alike u t ∧
      ∀ k, k ≠ c → t.cr3 k = u.cr3 k ∧ t.tlb k = u.tlb k := by
  have hc : (answered u cur w).curenv c = some cur := by
    have hx : (answered u cur w).curenv c = (saved c cur tf s).curenv c := by
      rw [KState.curenv, KState.curenv, ← hcpus]
      rfl
    rw [hx, saved_curenv]
    exact hu.current
  have hst : ((answered u cur w).envs cur).envStatus = .running := by
    simp [answered, KState.setEnv, hcur, saved_envs, hrun]
  obtain ⟨Le, hLe⟩ := h.core.envs
  obtain ⟨d, hd⟩ : ∃ d, (s.envs cur).envPgdir = some d :=
    Option.ne_none_iff_exists'.mp (eligible_dir hLe (Or.inr hrun))
  have hd' : ((answered u cur w).envs cur).envPgdir = some d := by
    simp [answered, KState.setEnv, hcur, saved_envs, hd]
  have hr : Runs c cur (answered u cur w) (resume c cur d (preempt c (answered u cur w))) :=
    ⟨d, hd', rfl⟩
  have hans : Alike u (answered u cur w) := Alike.setEnv rfl rfl Iff.rfl
  refine ⟨_, step_called hu hcs (.of_lt hebp) hno hsys (.stay hc hst hr), hr.inUser.1, ?_,
    fun x hx => ?_, hans.trans (hr.alike (by rw [hst]; simp)), fun k hk => hr.others hk⟩
  · rw [resume_envs, if_pos rfl, preempt_envs, if_pos ⟨hc, hst⟩]
    constructor <;> simp [answered, KState.setEnv, hcur, saved_envs, Trapframe.withEax]
  · rw [resume_envs, if_neg hx, preempt_envs, if_neg fun hy => hx ?_]
    · simp [answered, KState.setEnv, hx]
    · exact (Option.some.inj (hc.symm.trans hy.1)).symm

theorem ParentOn.returns (h : ParentOn s) (inp : Input) (tf : Trapframe) (hcs : tf.tfCs = gdUt ||| 3)
    (hebp : tf.tfRegs.regEbp < ulim) (hno : tf.tfTrapno = tSyscall)
    (hsys : syscall 0 inp tf.tfRegs.regEax tf.tfRegs.regEdx tf.tfRegs.regEcx tf.tfRegs.regEbx
      tf.tfRegs.regEdi tf.tfRegs.regEsi (saved 0 0 tf s) = .ok w u)
    (hcpus : u.cpus = (saved 0 0 tf s).cpus) (h0 : u.envs 0 = (saved 0 0 tf s).envs 0) :
    ∃ t, Step s (0, .trap inp tf) t ∧ InUser t 0 0 ∧ Answers (s.envs 0) (t.envs 0) w ∧
      (∀ x, x ≠ 0 → t.envs x = u.envs x) ∧ Alike u t ∧
      ∀ k, k ≠ 0 → t.cr3 k = u.cr3 k ∧ t.tlb k = u.tlb k :=
  call_returns h.inv h.user h.running inp tf hcs hebp hno hsys hcpus h0

/-- A safe call of the parent. -/
theorem ParentOn.called (h : ParentOn s) (inp : Input) (tf : Trapframe) (hcs : tf.tfCs = gdUt ||| 3)
    (hebp : tf.tfRegs.regEbp < ulim) (hno : tf.tfTrapno = tSyscall)
    (hsys : syscall 0 inp tf.tfRegs.regEax tf.tfRegs.regEdx tf.tfRegs.regEcx tf.tfRegs.regEbx
      tf.tfRegs.regEdi tf.tfRegs.regEsi (saved 0 0 tf s) = .ok w u)
    (hsafe : (Call.ofTf tf).Safe (saved 0 0 tf s) 0 True 0)
    (hcpus : u.cpus = (saved 0 0 tf s).cpus) (h0 : u.envs 0 = (saved 0 0 tf s).envs 0)
    (hrest : ∀ e : EnvIdx, 1 < e.val → (u.envs e).envStatus = .free) :
    ∃ t, Step s (0, .trap inp tf) t ∧ ParentOn t ∧ (∀ x, x ≠ 0 → t.envs x = u.envs x) ∧
      Alike u t ∧ (∀ k, k ≠ 0 → t.cr3 k = u.cr3 k ∧ t.tlb k = u.tlb k) ∧
      Answers (s.envs 0) (t.envs 0) w := by
  obtain ⟨t, hst, hu, hans, henvs, ha, hk⟩ := h.returns inp tf hcs hebp hno hsys hcpus h0
  have hinv : Inv True t := by
    refine step_inv h.inv ⟨.inl trivial, fun cur _ hcur => ?_⟩ hst
    obtain rfl := Option.some.inj (h.user.current.symm.trans hcur)
    refine ⟨?_, fun _ _ => hsafe⟩
    rintro ⟨k, hk, hm, hx⟩
    obtain ⟨rfl, h1⟩ := h.others k hk hm
    exact nomatch h1.symm.trans hx
  refine ⟨t, hst, ⟨hinv, hu, hans.status, hans.id.trans h.id, fun k hk hm => ?_, fun e he => ?_⟩,
    henvs, ha, hk, hans⟩
  · have hcpu := fun k hk => step_cpus_of_ne hst (k := k) hk
    rw [hcpu k hk] at hm
    rw [KState.curenv, hcpu 1 (by decide)]
    exact h.others k hk hm
  · rw [henvs e (by rintro rfl; exact absurd he (by decide))]
    exact hrest e he

/-- Calls that neither destroy an environment nor touch a mapping. -/
theorem Call.safe_of_no {T : Prop} {call : Call} (h : call.no ∉ [3, 4, 5, 6, 11]) :
    call.Safe s cur T c := by
  simp only [List.mem_cons, List.not_mem_nil, or_false, not_or] at h
  obtain ⟨h3, h4, h5, h6, h11⟩ := h
  have hins : ∀ {x va f}, ¬ call.Inserts s cur x va f := by
    rintro x va f (⟨hno, -⟩ | ⟨⟨hno, -⟩, -⟩)
    · exact h5 hno
    · exact h11 hno
  refine ⟨fun e he => absurd he.1 h3, fun e he => absurd he.1 h11, fun e va f hi => absurd hi hins,
    fun _ e hd => ?_⟩
  cases hd with
  | alloc hno => exact absurd hno h4
  | unmap hno => exact absurd hno h6
  | insert hi => exact absurd hi hins

/-- Calls that neither concern another environment nor touch a mapping are careful. -/
theorem careful_of_no (h : (Call.ofTf tf).no ∉ [3, 4, 5, 6, 8, 11]) :
    Careful True s (c, .trap inp tf) := by
  simp only [List.mem_cons, List.not_mem_nil, or_false, not_or] at h
  obtain ⟨h3, h4, h5, h6, h8, h11⟩ := h
  refine ⟨?_, .inl trivial, ?_⟩
  · rintro _ _ cur e ⟨⟩ - - -
    refine ⟨?_, fun hf => h3 hf.1.1⟩
    rintro (hw | hw)
    · exact h8 hw.1
    · exact h11 hw.1
  · rintro _ _ cur ⟨⟩ - -
    exact Call.safe_of_no (by simp [h3, h4, h5, h6, h11])

theorem careful_start : Careful True s (c, .start) :=
  ⟨fun _ _ _ _ h => (by cases h), .inl trivial, fun _ _ _ h => (by cases h)⟩

theorem plainly_of_no (h : (Call.ofTf tf).no ∉ [3, 4, 5, 6, 8, 11]) :
    Plainly s (c, .trap inp tf) := by
  refine ⟨careful_of_no h, ?_⟩
  rintro _ _ _ _ ⟨⟩ - - hset
  exact absurd hset.1 fun h8 => h (by simp [h8])

theorem plainly_start : Plainly s (c, .start) :=
  ⟨careful_start, fun _ _ _ _ h => (by cases h)⟩

/-- So is a safe call of the parent while no other CPU runs user code. -/
theorem ParentOn.careful (h : ParentOn s) (halone : ∀ k, k ≠ 0 → (s.cpus k).mode ≠ .user)
    (hsafe : (Call.ofTf tf).Safe (saved 0 0 tf s) 0 True 0) :
    Careful True s (0, .trap inp tf) := by
  refine ⟨?_, .inl trivial, ?_⟩
  · rintro _ _ _ e - - - ⟨k, hk, hm, -⟩
    exact absurd hm (halone k hk)
  · rintro _ _ cur ⟨⟩ hu -
    obtain rfl := Option.some.inj (h.user.current.symm.trans hu.current)
    exact hsafe

theorem Pair.look (h : Pair s st) (hst : st ≠ .free) : lookupEnv s 0 4097 true = some 1 := by
  have hx : envx 4097 = 1 := by decide
  have hne : ¬ (4097 : Word) = 0 := by decide
  have h1 : (s.envs 1).envStatus ≠ .free := by
    rw [h.status]
    exact hst
  unfold lookupEnv
  rw [hx, if_neg hne, if_neg fun hy => hy.elim h1 fun hid => hid h.childId,
    if_neg fun hy => hy.2.2 (h.parentId.trans h.id.symm)]

/-- A call of the parent that finds the child concerns it. -/
theorem Pair.setsStatus_child (h : Pair s st) (hst : st ≠ .free) {x : EnvIdx} {w : Word}
    (hx : SetsStatus s 0 (Call.ofTf (callFrame 8 4097 w 0)) x) : x = 1 :=
  Option.some.inj (hx.2.symm.trans (h.look hst))

/-- The parent sets the status of a child that does not wait, while no other CPU runs user code. -/
theorem Pair.plainly (h : Pair s .notRunnable) (halone : ∀ k, k ≠ 0 → (s.cpus k).mode ≠ .user)
    (hrecv : (s.envs 1).envIpcRecving = false) (w : Word) :
    Plainly s (0, .trap inp (callFrame 8 4097 w 0)) := by
  refine ⟨h.careful halone (Call.safe_of_no (by show 8 ∉ [3, 4, 5, 6, 11]; decide)), ?_⟩
  rintro _ _ cur e ⟨⟩ hu - hset
  obtain rfl := Option.some.inj (h.user.current.symm.trans hu.current)
  obtain rfl := h.setsStatus_child (by simp) hset
  exact ⟨by rw [h.status]; simp, hrecv⟩

/-- The parent sets the child's status. -/
theorem Pair.setsStatus (h : Pair s st) (inp : Input) (hst : st ≠ .free) {w : Word} {st' : EnvStatus}
    (hw : statusOfWord w = some st') : ∃ t, Step s (0, .trap inp (callFrame 8 4097 w 0)) t ∧
      Pair t st' ∧ t.envs 1 = { s.envs 1 with envStatus := st' } ∧ Alike s t ∧
      (∀ k, k ≠ 0 → t.cr3 k = s.cr3 k ∧ t.tlb k = s.tlb k) ∧ Answers (s.envs 0) (t.envs 0) 0 := by
  set m := saved 0 0 (callFrame 8 4097 w 0) s with hm
  have hc : m.curenv 0 = some 0 := (saved_curenv _ 0).trans h.user.current
  have hl : lookupEnv m 0 4097 true = some 1 := (saved_lookup _ _ _).trans (h.look hst)
  have hsys : syscall 0 inp 8 4097 w 0 0 0 m
      = .ok 0 (m.setEnv 1 { m.envs 1 with envStatus := st' }) := by
    have hrun : sysEnvSetStatus 0 4097 w m
        = .ok (.ok 0) (m.setEnv 1 { m.envs 1 with envStatus := st' }) := by
      simp only [sysEnvSetStatus, hw, run_bind, envid2env_run hc, hl, run_modify, run_pure]
    simp only [syscall]
    rw [show (8 : Word).toNat = 8 from rfl]
    simp only [run_bind, hrun]
    rfl
  have hm1 : m.envs 1 = s.envs 1 := by rw [hm, saved_envs, if_neg (by decide)]
  have hne : st' ≠ .free := by rcases statusOfWord_ne_free hw with rfl | rfl <;> simp
  obtain ⟨t, hstep, hp, henvs, ha, hk, hans⟩ := h.called inp (callFrame 8 4097 w 0) rfl
    (callFrame_ebp _ _ _ _) rfl
    hsys (Call.safe_of_no (by show 8 ∉ [3, 4, 5, 6, 11]; decide)) rfl
    (setEnv_envs_of_ne (by decide)) fun e he => by
      have he1 : e ≠ 1 := by
        rintro rfl
        exact absurd he (by decide)
      have he0 : e ≠ 0 := by
        rintro rfl
        exact absurd he (by decide)
      simp [KState.setEnv, he1, hm, saved_envs, he0, h.rest e he]
  have h1 : t.envs 1 = { s.envs 1 with envStatus := st' } := by
    rw [henvs 1 (by decide)]
    simp [KState.setEnv, hm1]
  have hset : Alike m (m.setEnv 1 { m.envs 1 with envStatus := st' }) :=
    Alike.setEnv rfl rfl (by simp [hne, hm1, h.status, hst])
  exact ⟨t, hstep, ⟨hp, by rw [h1], by rw [h1]; exact h.childId, by rw [h1]; exact h.parentId⟩, h1,
    ((saved_alike _).trans hset).trans ha, hk, hans⟩

/-- CPU 1 has not entered the scheduler yet. -/
def Waits1 (s : KState) : Prop := (s.cpus 1).mode = .starting ∧ s.curenv 1 = none

theorem ParentOn.alone (h : ParentOn s) (hw : Waits1 s) (k : CpuIdx) (hk : k ≠ 0) :
    (s.cpus k).mode ≠ .user := by
  intro hm
  obtain ⟨rfl, -⟩ := h.others k hk hm
  rw [hw.1] at hm
  cases hm

/-- Before the fork. -/
structure Childless (s : KState) : Prop extends ParentOn s where
  head : s.envFreeList = some 1
  next : s.envs 1 = emptyEnv 1
  room : ∃ L, PageInv s L ∅ ∧ 1000 ≤ L.length
  waits : Waits1 s

theorem oneProgram_boot : ∃ s, boot oneProgram = some s ∧ Childless s := by
  obtain ⟨s, L, hboot, hb, hL, hlen⟩ := boot_fits (p := oneProgram) (n := 1000) ⟨by decide, rfl,
    ⟨by simp [oneProgram], fun b hb => by
      obtain rfl := List.mem_singleton.mp hb
      exact ⟨rfl, by decide, rfl⟩⟩, by simp [oneProgram]⟩
  obtain ⟨v, hv, h0⟩ := hb.first
  have hempty : ∀ e : EnvIdx, 0 < e.val → s.envs e = emptyEnv e := by
    intro e he
    have hne : e ≠ 0 := by
      rintro rfl
      exact absurd he (by decide)
    have hlen1 : oneProgram.images.length = 1 := rfl
    have := hb.envs e hne
    rwa [if_neg (by omega)] at this
  obtain ⟨h1, h2, h3⟩ := hb.others 1 (by decide)
  refine ⟨s, hboot, ⟨⟨hb.inv, ⟨hb.bsp.1, hb.bsp.2, by rw [h0]; simp⟩, by rw [h0], ?_,
    fun k hk hm => absurd hm (hb.others k hk).1, fun e he => ?_⟩, hb.head, hempty 1 (by decide),
    ⟨L, hL, hlen⟩, h3 (by decide), h2⟩⟩
  · rw [h0]
    exact hv.envId
  · rw [hempty e (by omega)]
    rfl

/-- `sys_exofork`. -/
theorem Childless.forks (h : Childless s) (inp : Input) :
    ∃ t L, Step s (0, .trap inp (callFrame 7 0 0 0)) t ∧ Pair t .notRunnable ∧ PageInv t L ∅ ∧
      999 ≤ L.length ∧ (∀ i, tabFrame t (some 1) i = none) ∧
      (t.envs 1).envIpcRecving = false ∧ Waits1 t ∧ Answers (s.envs 0) (t.envs 0) 4097 ∧
      (t.envs 1).envTf.tfRegs.regEax = 0 := by
  set m := saved 0 0 (callFrame 7 0 0 0) s with hm
  have hma : Alike s m := saved_alike _
  obtain ⟨L, hL, hlen⟩ := h.room
  have hLm : PageInv m L ∅ :=
    pageInv_congr hL hma.mem hma.dir hma.pages hma.freeList hma.limits
  have hm1 : m.envs 1 = emptyEnv 1 := by rw [hm, saved_envs, if_neg (by decide), h.next]
  have hc : m.curenv 0 = some 0 := (saved_curenv _ 0).trans h.user.current
  rcases envAlloc_spec hLm (m.envs 0).envId with ⟨hwhy, -⟩ | ⟨e, p, -, v, hr, hcr, -, -, -, -,
    L', rfl, hinv⟩
  · rcases hwhy with hx | rfl
    · rw [show m.envFreeList = s.envFreeList from rfl, h.head] at hx
      cases hx
    · simp at hlen
  obtain rfl : e = 1 := Option.some.inj (hcr.head.symm.trans h.head)
  have hv1 : v.envs 1 = newEnv m 1 (m.envs 0).envId p := by rw [hcr.envs, Function.update_self]
  set u := v.setEnv 1 { v.envs 1 with
    envStatus := .notRunnable, envTf := (m.envs 0).envTf.withEax 0 } with hu
  have hsys : syscall 0 inp 7 0 0 0 0 0 m = .ok (u.envs 1).envId u := by
    have hv0 : v.envs 0 = m.envs 0 := by rw [hcr.envs, Function.update_of_ne (by decide)]
    have hrun : sysExofork 0 m = .ok (.ok (u.envs 1).envId) u := by
      simp only [sysExofork, run_bind, getCurenv_run hc, run_get, hr, run_modify, run_pure, hv0]
      rfl
    simp only [syscall]
    rw [show (7 : Word).toNat = 7 from rfl]
    simp only [run_bind, hrun]
    rfl
  have hu1 : u.envs 1 = { newEnv m 1 (m.envs 0).envId p with
      envStatus := .notRunnable, envTf := (m.envs 0).envTf.withEax 0 } := by
    rw [hu, ← hv1]
    simp [KState.setEnv]
  have hux : ∀ e, e ≠ 1 → u.envs e = m.envs e := fun e he => by
    rw [hu]
    simp [KState.setEnv, he, hcr.envs]
  obtain ⟨t, hstep, hp, henvs, ha, -, hans⟩ := h.called inp (callFrame 7 0 0 0) rfl
    (callFrame_ebp _ _ _ _) rfl
    hsys (Call.safe_of_no (by decide)) hcr.cpus (hux 0 (by decide)) fun e he => by
      have he1 : e ≠ 1 := by
        rintro rfl
        exact absurd he (by decide)
      have he0 : e ≠ 0 := by
        rintro rfl
        exact absurd he (by decide)
      rw [hux e he1, hm, saved_envs, if_neg he0]
      exact h.rest e he
  have h1 : t.envs 1 = u.envs 1 := henvs 1 (by decide)
  have hvu : Alike v u := Alike.setEnv rfl rfl (by simp [hv1, newEnv])
  have hvt := hvu.trans ha
  have hwait : t.cpus 1 = s.cpus 1 := step_cpus_of_ne hstep (by decide)
  have hid : (u.envs 1).envId = 4097 := by
    have hgen : (u.envs 1).envId = nextGeneration (m.envs 1).envId ||| 1 := by
      rw [hu1]
      rfl
    rw [hgen, hm1]
    decide
  refine ⟨t, L', hstep, ⟨hp, by rw [h1, hu1], h1 ▸ hid, ?_⟩, ?_, by simpa using hlen,
    fun i => ?_, ?_, ?_, hid ▸ hans, by rw [h1, hu1]; rfl⟩
  · have hpar : (u.envs 1).envParentId = (m.envs 0).envId := by
      rw [hu1]
      rfl
    rw [h1, hpar, (saved_ids s 0 0 _ 0).2.1, h.id]
  · exact pageInv_congr (hinv (by rw [hm1]; rfl)) hvt.mem hvt.dir hvt.pages hvt.freeList hvt.limits
  · rw [hvt.tables.1]
    exact hcr.noTab i
  · rw [h1, hu1]
    rfl
  · exact ⟨by rw [hwait]; exact h.waits.1, by rw [KState.curenv, hwait]; exact h.waits.2⟩

/-- CPU 1, which runs nothing, comes to the scheduler and takes the child. -/
theorem Pair.chosen {m : KState} {ev : Event} (h : Pair s .runnable)
    (hsafe : StepSafe True s (1, ev)) (henvs : m.envs = s.envs)
    (hcpus : ∀ k, k ≠ 1 → m.cpus k = s.cpus k) (hnone : m.curenv 1 = none) (ha : Alike s m)
    (hgo : ∀ t, Yields 1 m t → Step s (1, ev) t) :
    ∃ t, Step s (1, ev) t ∧ Pair t .running ∧ InUser t 1 1 ∧ Runs 1 1 m t ∧ Alike s t ∧
      t.envs 1 = { s.envs 1 with
        envStatus := .running, envRuns := (s.envs 1).envRuns + 1, envCpunum := 1 } ∧
      t.envs 0 = s.envs 0 := by
  have hrun : ∀ e, Runnable m e ↔ e ∈ ([1] : List EnvIdx) := by
    intro e
    rw [Runnable, henvs, List.mem_singleton]
    refine ⟨fun he => ?_, fun he => by rw [he, h.status]⟩
    by_contra hne
    rcases eq_or_ne e 0 with rfl | h0
    · rw [h.running] at he
      cases he
    · have hv : e.val ≠ 0 := fun hx => h0 (Fin.ext hx)
      have hv1 : e.val ≠ 1 := fun hx => hne (Fin.ext hx)
      rw [h.rest e (by omega)] at he
      cases he
  have hb : schedBegin m 1 = 0 := by simp only [schedBegin, hnone]
  have hpick : schedPick m (schedBegin m 1) = some 1 := by
    rw [hb]
    exact schedPick_first_of (by omega) hrun (List.mem_singleton_self 1)
      fun e he hne => absurd (List.mem_singleton.mp he) hne
  obtain ⟨Le, hLe⟩ := h.inv.core.envs
  obtain ⟨d, hd⟩ : ∃ d, (m.envs 1).envPgdir = some d := by
    rw [henvs]
    exact Option.ne_none_iff_exists'.mp (eligible_dir hLe (Or.inl h.status))
  have hpre : preempt 1 m = m := by
    unfold preempt
    rw [hnone]
  have hr : Runs 1 1 m (resume 1 1 d (preempt 1 m)) := ⟨d, hd, rfl⟩
  have hst : Step s (1, ev) (resume 1 1 d (preempt 1 m)) := hgo _ (.pick hpick hr)
  have henv : ∀ e, e ≠ 1 → (resume 1 1 d (preempt 1 m)).envs e = s.envs e := fun e he => by
    rw [resume_envs, if_neg he, hpre, henvs]
  have h1 : (resume 1 1 d (preempt 1 m)).envs 1 = { s.envs 1 with
      envStatus := .running, envRuns := (s.envs 1).envRuns + 1, envCpunum := 1 } := by
    rw [resume_envs, if_pos rfl, hpre, henvs]
  have hcpu : ∀ k, k ≠ 1 → (resume 1 1 d (preempt 1 m)).cpus k = s.cpus k := fun k hk =>
    (hr.cpus_of_ne hk).trans (hcpus k hk)
  refine ⟨_, hst, ⟨⟨step_inv h.inv hsafe hst, ⟨?_, ?_, ?_⟩, ?_, ?_, fun k hk hm => ?_,
    fun e he => ?_⟩, by rw [h1], by rw [h1]; exact h.childId, by rw [h1]; exact h.parentId⟩,
    hr.inUser.1, hr, ha.trans (hr.alike (by rw [henvs, h.status]; simp)), h1, henv 0 (by decide)⟩
  · rw [hcpu 0 (by decide)]
    exact h.user.mode
  · rw [KState.curenv, hcpu 0 (by decide)]
    exact h.user.current
  · rw [henv 0 (by decide)]
    exact h.user.live
  · rw [henv 0 (by decide)]
    exact h.running
  · rw [henv 0 (by decide)]
    exact h.id
  · refine ⟨?_, hr.inUser.1.current⟩
    by_contra hk1
    rw [hcpu k hk1] at hm
    exact hk1 (h.others k hk hm).1
  · rw [henv e (by rintro rfl; exact absurd he (by decide))]
    exact h.rest e he

/-- At its start. -/
theorem Pair.starts (h : Pair s .runnable) (hw : Waits1 s) :
    ∃ t, Step s (1, .start) t ∧ Pair t .running ∧ InUser t 1 1 ∧ Runs 1 1 s t ∧ Alike s t ∧
      t.envs 1 = { s.envs 1 with
        envStatus := .running, envRuns := (s.envs 1).envRuns + 1, envCpunum := 1 } ∧
      t.envs 0 = s.envs 0 := by
  refine h.chosen ⟨.inl trivial, trivial⟩ rfl (fun _ _ => rfl) hw.2 (.refl s) fun t hy => ?_
  unfold Step step
  simp only
  rw [if_pos hw.1]
  exact enter_eq_some.mpr (schedYield_run hy)

/-- The frame of a timer interrupt on a halted CPU. -/
def wakeFrame : Trapframe := { Trapframe.zero with tfTrapno := irqTimer, tfCs := gdKt }

/-- When the timer wakes it. -/
theorem Pair.wakes (h : Pair s .runnable) (hw : s.cpus 1 = ⟨.halted, none, .halted⟩) (inp : Input) :
    ∃ t, Step s (1, .trap inp wakeFrame) t ∧ Pair t .running ∧ InUser t 1 1 ∧
      t.envs 1 = { s.envs 1 with
        envStatus := .running, envRuns := (s.envs 1).envRuns + 1, envCpunum := 1 } ∧
      t.envs 0 = s.envs 0 := by
  have hmode : (s.cpus 1).mode = .halted := by rw [hw]
  have hnone : (started 1 s).curenv 1 = none := by
    simp [started, KState.curenv, KState.setCpu, hw]
  have hsafe : StepSafe True s (1, .trap inp wakeFrame) := by
    refine ⟨.inl trivial, fun cur hm _ => ?_⟩
    rw [hmode] at hm
    cases hm
  obtain ⟨t, hst, hp, hu, -, -, h1, h0⟩ := h.chosen (m := started 1 s) hsafe rfl
    (fun k hk => by simp [started, KState.setCpu, hk]) hnone
    ⟨rfl, rfl, rfl, ⟨rfl, rfl, rfl, rfl, rfl⟩, rfl, fun _ => rfl, fun _ => rfl, fun _ => Iff.rfl⟩
    fun t hy => by
      have htrap : trap 1 inp wakeFrame s = .error .leave t := by
        have h3 : ¬ wakeFrame.tfCs &&& 3 = 3 := by decide
        have h1 : wakeFrame.tfTrapno ≠ tPgflt := by decide
        have h2 : wakeFrame.tfTrapno ≠ tBrkpt := by decide
        have h4 : wakeFrame.tfTrapno ≠ tSyscall := by decide
        have h5 : wakeFrame.tfTrapno = irqTimer := rfl
        have hdisp : trapDispatch 1 inp wakeFrame (started 1 s) = .error .leave t := by
          simp only [trapDispatch, if_neg h1, if_neg h2, if_neg h4, if_pos h5]
          exact schedYield_run hy
        simp only [trap, run_bind, run_modify, if_neg h3]
        rw [show s.setCpu 1 { s.cpus 1 with cpuStatus := .started } = started 1 s from rfl, hdisp]
      have ha : TrapAllowed s 1 wakeFrame := Or.inr ⟨hmode, rfl, by decide⟩
      unfold Step step
      simp only
      rw [if_pos ha]
      exact enter_eq_some.mpr htrap
  exact ⟨t, hst, hp, hu, h1, h0⟩

theorem schedPick_none_of {n : Nat} (h : ∀ e, (s.envs e).envStatus ≠ .runnable) :
    schedPick s n = none := by
  unfold schedPick
  exact List.find?_eq_none.mpr fun e _ => by simpa using h e

/-- A system call that does not return, as a step. -/
theorem step_left (hu : InUser s c cur) (hcs : tf.tfCs = gdUt ||| 3) (hk : CallersOk s c inp tf)
    (hno : tf.tfTrapno = tSyscall)
    (hsys : syscall c inp tf.tfRegs.regEax tf.tfRegs.regEdx tf.tfRegs.regEcx tf.tfRegs.regEbx
      tf.tfRegs.regEdi tf.tfRegs.regEsi (saved c cur tf s) = .error .leave t) :
    Step s (c, .trap inp tf) t := by
  have hc' : (saved c cur tf s).curenv c = some cur := (saved_curenv _ c).trans hu.current
  have hdisp : trapDispatch c inp tf (saved c cur tf s) = .error .leave t := by
    unfold trapDispatch
    rw [if_neg (by rw [hno]; decide), if_neg (by rw [hno]; decide), if_pos hno]
    simp only [run_bind, getCurenv_run hc', hsys]
  have htrap : trap c inp tf s = .error .leave t := by
    rw [trap_user hcs hu.current hk hu.live, run_bind, hdisp]
  have ha : TrapAllowed s c tf := Or.inl ⟨hu.mode, hcs⟩
  unfold Step step
  simp only
  rw [if_pos ha]
  exact enter_eq_some.mpr htrap

theorem sysIpcRecv_run (hc : s.curenv c = some cur) {va : Word} (hva : ¬ (va < utop ∧ pgoff va ≠ 0))
    (hy : Yields c (receiving s cur va) t) : sysIpcRecv c va s = .error .leave t := by
  have hwait : sysIpcRecv c va s = (schedYield c >>= fun _ => pure (.ok 0)) (receiving s cur va) := by
    simp only [sysIpcRecv, receiving, run_ite, if_neg hva, run_bind, getCurenv_run hc, run_modify]
  rw [hwait, run_bind, schedYield_run hy]

theorem getenvid_run (hc : s.curenv c = some cur) (inp : Input) :
    syscall c inp 2 0 0 0 0 0 s = .ok (s.envs cur).envId s := by
  unfold syscall
  rw [show (2 : Word).toNat = 2 from rfl]
  simp only [sysGetenvid, run_bind, getCurenv_run hc, run_get, run_pure]

/-- Of an empty string no page is checked. -/
theorem cputs_run (hc : s.curenv c = some cur) (hd : (s.envs cur).envPgdir ≠ none) (inp : Input) :
    syscall c inp 0 0 0 0 0 0 s = .ok 0 s := by
  obtain ⟨d, hd⟩ := Option.ne_none_iff_exists'.mp hd
  have hlast : ¬ rounddown (0 : Word) < roundup (0 + 0) := by decide
  have hloop : ∀ n, userMemCheckLoop d 0 (roundup (0 + 0)) (0 ||| pteU) n (rounddown 0) s =
      .ok (.ok ()) s := by
    rintro (_ | n)
    · rfl
    · simp only [userMemCheckLoop, if_neg hlast, run_pure]
  have hcheck : userMemCheck cur 0 0 (0 ||| pteU) s = .ok (.ok ()) s := by
    simp only [userMemCheck, run_bind, run_get, hd, hloop]
  unfold syscall
  rw [show (0 : Word).toNat = 0 from rfl]
  simp only [sysCputs, userMemAssert, run_bind, getCurenv_run hc, hcheck, run_pure]

/-- The first environment learns its own id. -/
theorem Childless.learns (h : Childless s) (inp : Input) :
    ∃ t, Step s (0, .trap inp (callFrame 2 0 0 0)) t ∧ Childless t ∧
      Answers (s.envs 0) (t.envs 0) 4096 ∧ ∀ e, e ≠ 0 → t.envs e = s.envs e := by
  set m := saved 0 0 (callFrame 2 0 0 0) s with hm
  have hc : m.curenv 0 = some 0 := (saved_curenv _ 0).trans h.user.current
  have hme : ∀ e, e ≠ 0 → m.envs e = s.envs e := fun e he => by rw [hm, saved_envs, if_neg he]
  obtain ⟨t, hst, ht, henvs, ha, -, hans⟩ := h.called inp (callFrame 2 0 0 0) rfl
    (callFrame_ebp _ _ _ _) rfl (getenvid_run hc inp) (Call.safe_of_no (by decide)) rfl rfl
    fun e he => by
      rw [hme e (by rintro rfl; exact absurd he (by decide))]
      exact h.rest e he
  have hid : (m.envs 0).envId = 4096 := ((saved_ids s 0 0 _ 0).2.1).trans h.id
  have hst' : ∀ e, e ≠ 0 → t.envs e = s.envs e := fun e he => (henvs e he).trans (hme e he)
  have hal : Alike s t := (saved_alike _).trans ha
  have hcpu : t.cpus 1 = s.cpus 1 := step_cpus_of_ne hst (by decide)
  obtain ⟨L, hL, hlen⟩ := h.room
  exact ⟨t, hst, ⟨ht, hal.envFreeList.trans h.head, (hst' 1 (by decide)).trans h.next,
    ⟨L, pageInv_congr hL hal.mem hal.dir hal.pages hal.freeList hal.limits, hlen⟩,
    ⟨by rw [hcpu]; exact h.waits.1, by rw [KState.curenv, hcpu]; exact h.waits.2⟩⟩, hid ▸ hans, hst'⟩

/-- What the child may call without harm while its parent runs. -/
theorem Pair.child_safe (h : Pair s .running) (hu : InUser s 1 1)
    (hno : (Call.ofTf tf).no ∉ [3, 4, 5, 6, 11]) : StepSafe True s (1, .trap inp tf) := by
  refine ⟨.inl trivial, fun cur _ hcur => ?_⟩
  obtain rfl := Option.some.inj (hu.current.symm.trans hcur)
  refine ⟨?_, fun _ _ => Call.safe_of_no hno⟩
  rintro ⟨k, hk, hmode, hx⟩
  rcases eq_or_ne k 0 with rfl | h0
  · cases h.user.current.symm.trans hx
  · exact hk (h.others k h0 hmode).1

/-- A call of the child that changes nothing. -/
theorem Pair.answers (h : Pair s .running) (hu : InUser s 1 1) (inp : Input) (tf : Trapframe)
    (hcs : tf.tfCs = gdUt ||| 3) (hebp : tf.tfRegs.regEbp < ulim) (htr : tf.tfTrapno = tSyscall)
    (hno : (Call.ofTf tf).no ∉ [3, 4, 5, 6, 11])
    (hsys : syscall 1 inp tf.tfRegs.regEax tf.tfRegs.regEdx tf.tfRegs.regEcx tf.tfRegs.regEbx
      tf.tfRegs.regEdi tf.tfRegs.regEsi (saved 1 1 tf s) = .ok w (saved 1 1 tf s)) :
    ∃ t, Step s (1, .trap inp tf) t ∧ Pair t .running ∧ InUser t 1 1 ∧
      Answers (s.envs 1) (t.envs 1) w ∧ t.envs 0 = s.envs 0 := by
  obtain ⟨t, hst, htu, hans, henvs, -, -⟩ :=
    call_returns h.inv hu h.status inp tf hcs hebp htr hsys rfl rfl
  have henv : ∀ e, e ≠ 1 → t.envs e = s.envs e := fun e he => by
    rw [henvs e he, saved_envs, if_neg he]
  have hcpu : ∀ k, k ≠ 1 → t.cpus k = s.cpus k := fun k hk => step_cpus_of_ne hst hk
  refine ⟨t, hst, ⟨⟨step_inv h.inv (h.child_safe hu hno) hst, ⟨?_, ?_, ?_⟩, ?_, ?_,
    fun k hk hm => ?_, fun e he => ?_⟩, hans.status, hans.id.trans h.childId,
    hans.parentId.trans h.parentId⟩, htu, hans, henv 0 (by decide)⟩
  · rw [hcpu 0 (by decide)]
    exact h.user.mode
  · rw [KState.curenv, hcpu 0 (by decide)]
    exact h.user.current
  · rw [henv 0 (by decide)]
    exact h.user.live
  · rw [henv 0 (by decide)]
    exact h.running
  · rw [henv 0 (by decide)]
    exact h.id
  · refine ⟨?_, htu.current⟩
    by_contra hk1
    rw [hcpu k hk1] at hm
    exact hk1 (h.others k hk hm).1
  · rw [henv e (by rintro rfl; exact absurd he (by decide))]
    exact h.rest e he

/-- The child waits for a message, with `va` as the address for a page. -/
structure ChildWaits (s : KState) (va : Word) : Prop extends Pair s .notRunnable where
  recving : (s.envs 1).envIpcRecving = true
  dstva : (s.envs 1).envIpcDstva = va
  alone : ∀ k, k ≠ 0 → (s.cpus k).mode ≠ .user

/-- The child calls `sys_ipc_recv`, and its CPU is halted. -/
theorem Pair.receives (h : Pair s .running) (hu : InUser s 1 1) (inp : Input) {va : Word}
    (hva : ¬ (va < utop ∧ pgoff va ≠ 0)) :
    ∃ t, Step s (1, .trap inp (callFrame 12 va 0 0)) t ∧ ChildWaits t va ∧ Alike s t ∧
      t.cpus 1 = ⟨.halted, none, .halted⟩ ∧ t.envs 0 = s.envs 0 := by
  set m := saved 1 1 (callFrame 12 va 0 0) s with hm
  have hc : m.curenv 1 = some 1 := (saved_curenv _ 1).trans hu.current
  have hm0 : ∀ e, e ≠ 1 → m.envs e = s.envs e := fun e he => by rw [hm, saved_envs, if_neg he]
  set r := receiving m 1 va with hr
  have hr0 : ∀ e, e ≠ 1 → r.envs e = s.envs e := fun e he => by
    rw [← hm0 e he, hr]
    simp [receiving, KState.setEnv, he]
  have hr1 : r.envs 1 = { m.envs 1 with
      envIpcRecving := true, envIpcDstva := va, envIpcValue := 0, envIpcFrom := 0,
      envIpcPerm := 0, envStatus := .notRunnable } := by
    rw [hr]
    simp [receiving, KState.setEnv]
  have hstat : ∀ e, (r.envs e).envStatus ≠ .runnable := by
    intro e
    rcases eq_or_ne e 1 with rfl | h1
    · rw [hr1]
      simp
    rw [hr0 e h1]
    rcases eq_or_ne e 0 with rfl | h0
    · rw [h.running]
      simp
    · have hv : e.val ≠ 0 := fun hx => h0 (Fin.ext hx)
      have hv1 : e.val ≠ 1 := fun hx => h1 (Fin.ext hx)
      rw [h.rest e (by omega)]
      simp
  have hcr : r.curenv 1 = some 1 := hc
  have hy : Yields 1 r (halted 1 r) := by
    refine .halt (schedPick_none_of hstat) (fun cur hcur => ?_) ⟨0, ?_⟩
    · obtain rfl := Option.some.inj (hcr.symm.trans hcur)
      rw [hr1]
      simp
    · rw [hr0 0 (by decide), h.running]
      rfl
  have hst : Step s (1, .trap inp (callFrame 12 va 0 0)) (halted 1 r) := by
    have hsys : syscall 1 inp 12 va 0 0 0 0 m = .error .leave (halted 1 r) := by
      simp only [syscall]
      rw [show (12 : Word).toNat = 12 from rfl]
      simp only [run_bind, sysIpcRecv_run hc hva hy]
    exact step_left hu rfl (.of_lt (callFrame_ebp _ _ _ _)) rfl hsys
  have hcpu : ∀ k, k ≠ 1 → (halted 1 r).cpus k = s.cpus k := fun k hk => step_cpus_of_ne hst hk
  have hcpu1 : (halted 1 r).cpus 1 = ⟨.halted, none, .halted⟩ := by
    rw [halted_cpus, Function.update_self]
  have halone : ∀ k, k ≠ 0 → ((halted 1 r).cpus k).mode ≠ .user := by
    intro k hk hmode
    rcases eq_or_ne k 1 with rfl | h1
    · rw [hcpu1] at hmode
      cases hmode
    · rw [hcpu k h1] at hmode
      exact h1 (h.others k hk hmode).1
  have henv : (halted 1 r).envs = r.envs := rfl
  have hsafe : StepSafe True s (1, .trap inp (callFrame 12 va 0 0)) :=
    h.child_safe hu (by show 12 ∉ [3, 4, 5, 6, 11]; decide)
  have hids := saved_ids s 1 1 (callFrame 12 va 0 0) 1
  refine ⟨halted 1 r, hst, ⟨⟨⟨step_inv h.inv hsafe hst, ⟨?_, ?_, ?_⟩, ?_, ?_,
    fun k hk hmode => absurd hmode (halone k hk), fun e he => ?_⟩, ?_, ?_, ?_⟩, ?_, ?_, halone⟩, ?_,
    hcpu1, by rw [henv, hr0 0 (by decide)]⟩
  · rw [hcpu 0 (by decide)]
    exact h.user.mode
  · rw [KState.curenv, hcpu 0 (by decide)]
    exact h.user.current
  · rw [henv, hr0 0 (by decide)]
    exact h.user.live
  · rw [henv, hr0 0 (by decide)]
    exact h.running
  · rw [henv, hr0 0 (by decide)]
    exact h.id
  · rw [henv, hr0 e (by rintro rfl; exact absurd he (by decide))]
    exact h.rest e he
  · rw [henv, hr1]
  · rw [henv, hr1]
    exact (hids.2.1).trans h.childId
  · rw [henv, hr1]
    exact (hids.2.2.1).trans h.parentId
  · rw [henv, hr1]
  · rw [henv, hr1]
  · have hrecv : Alike m r := Alike.setEnv rfl rfl (by
      rw [hids.1, h.status]
      simp)
    exact ((saved_alike _).trans hrecv).trans
      ⟨rfl, rfl, rfl, ⟨rfl, rfl, rfl, rfl, rfl⟩, rfl, fun _ => rfl, fun _ => rfl, fun _ => Iff.rfl⟩

/-- The parent sends the waiting child a value, and no page. -/
theorem ChildWaits.gets {va : Word} (h : ChildWaits s va) (v : Word) (inp : Input) :
    ∃ t, Step s (0, .trap inp (callFrame 11 4097 v (-1))) t ∧ Pair t .runnable ∧
      (t.envs 1).envTf.tfRegs.regEax = 0 ∧ (t.envs 1).envIpcFrom = 4096 ∧
      (t.envs 1).envIpcValue = v ∧ Answers (s.envs 0) (t.envs 0) 0 := by
  set m := saved 0 0 (callFrame 11 4097 v (-1)) s with hm
  have hc : m.curenv 0 = some 0 := (saved_curenv _ 0).trans h.user.current
  have hme : ∀ e, e ≠ 0 → m.envs e = s.envs e := fun e he => by rw [hm, saved_envs, if_neg he]
  have hl : lookupEnv m 0 4097 false = some 1 :=
    lookupEnv_unchecked ((saved_lookup _ _ _).trans (h.look (by simp)))
  have hnopage : ¬ (-1 : Word) < utop := by decide
  have hsys : syscall 0 inp 11 4097 v (-1) 0 0 m = .ok 0 (received m 0 1 v) := by
    have hrun : sysIpcTrySend 0 inp 4097 v (-1) 0 m = .ok (.ok 0) (received m 0 1 v) :=
      sysIpcTrySend_plain hc
        ⟨hl, by rw [hme 1 (by decide)]; exact h.recving⟩ hnopage inp
    simp only [syscall]
    rw [show (11 : Word).toNat = 11 from rfl]
    simp only [run_bind, hrun]
    rfl
  have hsafe : (Call.ofTf (callFrame 11 4097 v (-1))).Safe m 0 True 0 := by
    have hins : ∀ {x va f}, ¬ (Call.ofTf (callFrame 11 4097 v (-1))).Inserts m 0 x va f := by
      rintro x va f (⟨hno, -⟩ | ⟨⟨-, -, -, hlt, -⟩, -⟩)
      · exact absurd (show 11 = 5 from hno) (by decide)
      · exact hnopage hlt
    refine ⟨fun e he => absurd (show 11 = 3 from he.1) (by decide),
      fun e he => absurd he.2.2.2.1 hnopage, fun e va f hi => absurd hi hins, fun _ e hd => ?_⟩
    cases hd with
    | alloc hno => exact absurd (show 11 = 4 from hno) (by decide)
    | unmap hno => exact absurd (show 11 = 6 from hno) (by decide)
    | insert hi => exact absurd hi hins
  have hre : ∀ e, e ≠ 1 → (received m 0 1 v).envs e = m.envs e := fun e he =>
    setEnv_envs_of_ne he
  obtain ⟨t, hst, ht, henvs, -, -, hans⟩ := h.called inp (callFrame 11 4097 v (-1)) rfl
    (callFrame_ebp _ _ _ _) rfl hsys hsafe rfl (hre 0 (by decide)) fun e he => by
      have he1 : e ≠ 1 := by
        rintro rfl
        exact absurd he (by decide)
      rw [hre e he1, hme e (by rintro rfl; exact absurd he (by decide))]
      exact h.rest e he
  have h1 : t.envs 1 = (received m 0 1 v).envs 1 := henvs 1 (by decide)
  have hm1 : m.envs 1 = s.envs 1 := hme 1 (by decide)
  refine ⟨t, hst, ⟨ht, ?_, ?_, ?_⟩, ?_, ?_, ?_, hans⟩
  · rw [h1, received_env]
  · rw [h1, received_env]
    exact (congrArg Env.envId hm1).trans h.childId
  · rw [h1, received_env]
    exact (congrArg Env.envParentId hm1).trans h.parentId
  · rw [h1, received_env]
    rfl
  · rw [h1, received_env]
    exact ((saved_ids s 0 0 (callFrame 11 4097 v (-1)) 0).2.1).trans h.id
  · rw [h1, received_env]

/-- There are free pages, and the child has no page table yet. -/
structure Roomy (s : KState) : Prop where
  room : ∃ L, PageInv s L ∅ ∧ 999 ≤ L.length
  bare : ∀ i, tabFrame s (some 1) i = none

theorem Roomy.alike (h : Roomy s) (ha : Alike s t) : Roomy t := by
  obtain ⟨L, hL, hlen⟩ := h.room
  refine ⟨⟨L, pageInv_congr hL ha.mem ha.dir ha.pages ha.freeList ha.limits, hlen⟩, fun i => ?_⟩
  rw [ha.tables.1]
  exact h.bare i

end

/-- The parent forks a child and makes it runnable, and CPU 1 takes it. -/
theorem child_runs_roomy : ∃ ls s, BootRun Plainly oneProgram ls s ∧ Pair s .running ∧
    InUser s 1 1 ∧ (s.envs 1).envIpcRecving = false ∧ Roomy s := by
  obtain ⟨s0, hboot, h0⟩ := oneProgram_boot
  obtain ⟨s1, L, hs1, h1, hL, hlen, hbare, hrecv, hw1, -⟩ := h0.forks .plain
  obtain ⟨s2, hs2, h2, henv2, ha2, -⟩ := h1.setsStatus .plain (by simp) (w := 2) rfl
  have hcpu2 : s2.cpus 1 = s1.cpus 1 := step_cpus_of_ne hs2 (by decide)
  have hw2 : Waits1 s2 := ⟨by rw [hcpu2]; exact hw1.1, by rw [KState.curenv, hcpu2]; exact hw1.2⟩
  obtain ⟨s3, hs3, h3, hu3, -, ha3, henv3, -⟩ := h2.starts hw2
  have hroom : Roomy s1 := ⟨⟨L, hL, hlen⟩, hbare⟩
  refine ⟨_, s3, ⟨s0, hboot, .cons ⟨plainly_of_no (by decide), hs1⟩
    (.cons ⟨h1.plainly (h1.alone hw1) hrecv 2, hs2⟩ (.single ⟨plainly_start, hs3⟩))⟩, h3, hu3, ?_,
    (hroom.alike ha2).alike ha3⟩
  rw [henv3, henv2]
  exact hrecv

theorem child_runs : ∃ ls s, BootRun Plainly oneProgram ls s ∧ Pair s .running ∧
    InUser s 1 1 ∧ (s.envs 1).envIpcRecving = false := by
  obtain ⟨ls, s, hrun, h, hu, hrecv, -⟩ := child_runs_roomy
  exact ⟨ls, s, hrun, h, hu, hrecv⟩

/-- The child then waits for a message. -/
theorem child_waits (va : Word) (hva : ¬ (va < utop ∧ pgoff va ≠ 0)) :
    ∃ ls s, BootRun Plainly oneProgram ls s ∧ ChildWaits s va ∧ Roomy s := by
  obtain ⟨ls, s, ⟨s0, hboot, hrun⟩, h, hu, -, hroom⟩ := child_runs_roomy
  obtain ⟨t, hst, ht, ha, -⟩ := h.receives hu .plain hva
  have hplain : Plainly s (1, .trap .plain (callFrame 12 va 0 0)) :=
    plainly_of_no (by show 12 ∉ [3, 4, 5, 6, 8, 11]; decide)
  exact ⟨_, t, ⟨s0, hboot, hrun.append (.single ⟨hplain, hst⟩)⟩, ht, hroom.alike ha⟩

/-- As long as no system call wakes or frees what another CPU is running: in every state reached no
    environment runs on two CPUs, and `env_run` never takes one that another CPU is running. -/
theorem one_cpu_each {p : BootParams} {ls : List (CpuIdx × Event)} {s : KState}
    (h : BootRun SparesRunning p ls s) :
    (∀ k k' e, (s.cpus k).mode = .user → (s.cpus k').mode = .user → s.curenv k = some e →
      s.curenv k' = some e → k = k') ∧
    ∀ c ev t e, SparesRunning s (c, ev) → Step s (c, ev) t → (t.cpus c).mode = .user →
      t.curenv c = some e → ¬ Elsewhere s c e := by
  obtain ⟨s0, hboot, hr⟩ := h
  have hx := (boot_booted hboot).exclusive.run hr
  refine ⟨fun k k' e => hx.sole k k' e trivial trivial, fun c ev t e hsp hst hm hc he => ?_⟩
  obtain ⟨k, hk, hkm, hkc⟩ := (elsewhere_congr fun k hk => step_cpus_of_ne hst hk).mpr he
  exact hk ((hx.step hsp hst).sole k c e trivial trivial hkm hm hkc hc)

/-- The child runs on CPU 1 while its parent runs on CPU 0. -/
theorem one_cpu_each_demo : ∃ ls s, BootRun SparesRunning oneProgram ls s ∧ InUser s 0 0 ∧
    InUser s 1 1 ∧ (∀ k k' e, (s.cpus k).mode = .user → (s.cpus k').mode = .user →
      s.curenv k = some e → s.curenv k' = some e → k = k') ∧
    ∀ c ev t e, SparesRunning s (c, ev) → Step s (c, ev) t → (t.cpus c).mode = .user →
      t.curenv c = some e → ¬ Elsewhere s c e := by
  obtain ⟨ls, s, hrun, h, hu, -⟩ := child_runs
  have hr : BootRun SparesRunning oneProgram ls s := hrun.mono _ fun _ _ hc => hc.1.1
  exact ⟨ls, s, hr, h.user, hu, one_cpu_each hr⟩

/-- `sched_yield` on CPU 0, with the child to choose. -/
theorem Pair.yields {s : KState} (h : Pair s .runnable) :
    ∃ t, Step s (0, .trap .plain yieldFrame) t ∧ Runs 0 1 (saved 0 0 yieldFrame s) t := by
  set m := saved 0 0 yieldFrame s with hm
  have hm1 : m.envs 1 = s.envs 1 := by rw [hm, saved_envs, if_neg (by decide)]
  have hc : m.curenv 0 = some 0 := (saved_curenv _ 0).trans h.user.current
  have hb : schedBegin m 0 = 1 := by
    simp only [schedBegin, hc]
    rw [(saved_ids s 0 0 yieldFrame 0).2.1, h.id]
    rfl
  have hpick : schedPick m (schedBegin m 0) = some 1 := by
    rw [hb]
    refine schedPick_head (n := 1) ?_
    show (m.envs 1).envStatus = _
    rw [hm1, h.status]
  obtain ⟨Le, hLe⟩ := h.inv.core.envs
  obtain ⟨d, hd⟩ : ∃ d, (s.envs 1).envPgdir = some d :=
    Option.ne_none_iff_exists'.mp (eligible_dir hLe (Or.inl h.status))
  have hr : Runs 0 1 m (resume 0 1 d (preempt 0 m)) := ⟨d, by rw [hm1]; exact hd, rfl⟩
  exact ⟨_, step_yield h.user.mode h.user.current h.user.live (.pick hpick hr), hr⟩

/-- The parent calls `sys_env_set_status(child, ENV_RUNNABLE)` while CPU 1 is running the child,
    and yields: both CPUs run it. -/
theorem child_on_two_cpus : ∃ ls s, BootRun (fun _ _ => True) oneProgram ls s ∧
    (s.cpus 0).mode = .user ∧ (s.cpus 1).mode = .user ∧ s.curenv 0 = some 1 ∧
    s.curenv 1 = some 1 := by
  obtain ⟨ls, s, hr0, h, hu, -⟩ := child_runs
  obtain ⟨s0, hboot, hrun⟩ := hr0.mono (fun _ _ => True) fun _ _ _ => trivial
  obtain ⟨t, hst, ht, -⟩ := h.setsStatus .plain (by simp) (w := 2) rfl
  obtain ⟨v, hsv, hr⟩ := ht.yields
  have hcpu : v.cpus 1 = s.cpus 1 :=
    (step_cpus_of_ne hsv (by decide)).trans (step_cpus_of_ne hst (by decide))
  refine ⟨_, v, ⟨s0, hboot, hrun.append (.cons ⟨trivial, hst⟩ (.single ⟨trivial, hsv⟩))⟩,
    hr.inUser.1.mode, by rw [hcpu]; exact hu.mode, hr.inUser.1.current, ?_⟩
  rw [KState.curenv, hcpu]
  exact hu.current

end Jos
