import Jos.Failure

/-!
  `sys_ipc_try_send` and its contract.

  The code compares the permissions asked for with the bits of the sender's own entry, in place of
  the test that `sys_page_alloc` makes, and looks at the entry before it knows that there is one. -/

namespace Jos

open Lib RefCount

/-- The entry at `va` in the tables of `e`. -/
def pteOf (s : KState) (e : EnvIdx) (va : Word) : Word := pteAt s (some e) (pdx va) (ptx va)

/-- The frame that `e` maps at `va`. -/
def mappedAt (s : KState) (e : EnvIdx) (va : Word) : Option Nat :=
  target s (.pte e (pdx va) (ptx va))

/-- What the contract of `sys_ipc_try_send` asks of a page to send. -/
structure MaySend (s : KState) (cur : EnvIdx) (srcva perm : Word) : Prop where
  aligned : srcva = rounddown srcva
  bits : permOk perm = true
  mapped : mappedAt s cur srcva ≠ none
  write : perm &&& pteW ≠ 0 → pteOf s cur srcva &&& pteW ≠ 0

/-- What the code tests of a page that is mapped: the bits asked for are set in the entry. -/
def Covers (s : KState) (cur : EnvIdx) (srcva perm : Word) : Prop :=
  pteOf s cur srcva &&& perm &&& pteSyscall = perm &&& pteSyscall

instance (s : KState) (cur : EnvIdx) (srcva perm : Word) : Decidable (Covers s cur srcva perm) :=
  inferInstanceAs (Decidable (_ = _))

/-- A successful send: the receiver's `env_ipc_perm` is `perm` exactly if the page was mapped for
    it, and 0 otherwise. -/
structure Sent (s t : KState) (cur env : EnvIdx) (value srcva perm : Word) : Prop where
  message : (t.envs env).envIpcRecving = false ∧ (t.envs env).envIpcFrom = (s.envs cur).envId ∧
    (t.envs env).envIpcValue = value ∧ (t.envs env).envStatus = .runnable ∧
    (t.envs env).envTf.tfRegs.regEax = 0
  page : srcva < utop → (s.envs env).envIpcDstva < utop → ∃ f, mappedAt s cur srcva = some f ∧
    pteOf t env (s.envs env).envIpcDstva = page2pa f ||| perm ||| pteP ∧
    (t.envs env).envIpcPerm = perm ∧ perm ≠ 0
  noPage : ¬ (srcva < utop ∧ (s.envs env).envIpcDstva < utop) →
    t.mem = s.mem ∧ (t.envs env).envIpcPerm = 0

/-- The page table for the receiver's address is missing and there is no page for one. -/
def NoTable (s : KState) (env : EnvIdx) : Prop :=
  tabFrame s (some env) (pdx (s.envs env).envIpcDstva) = none ∧ s.pageFreeList = none

/-- `envid` names a live environment that waits for a message. -/
def Awaits (s : KState) (cur : EnvIdx) (envid : Word) (env : EnvIdx) : Prop :=
  lookupEnv s cur envid false = some env ∧ (s.envs env).envIpcRecving = true

/-- The contract in the comment of `sys_ipc_try_send`, whatever an unset pointer would lead to. The
    call always returns. -/
structure SendContract (s : KState) (c : CpuIdx) (cur : EnvIdx) (envid value srcva perm : Word) :
    Prop where
  missing : lookupEnv s cur envid false = none →
    ∀ inp, sysIpcTrySend c inp envid value srcva perm s = .ok (.error .badEnv) s
  deaf : ∀ env, lookupEnv s cur envid false = some env → (s.envs env).envIpcRecving = false →
    ∀ inp, sysIpcTrySend c inp envid value srcva perm s = .ok (.error .ipcNotRecv) s
  refused : ∀ env, Awaits s cur envid env → srcva < utop → ¬ MaySend s cur srcva perm →
    ∀ inp, sysIpcTrySend c inp envid value srcva perm s = .ok (.error .inval) s
  accepted : ∀ env, Awaits s cur envid env → (srcva < utop → MaySend s cur srcva perm) → ∀ inp,
    (∃ t, sysIpcTrySend c inp envid value srcva perm s = .ok (.ok 0) t ∧
      Sent s t cur env value srcva perm) ∨
    (sysIpcTrySend c inp envid value srcva perm s = .ok (.error .noMem) s ∧
      srcva < utop ∧ (s.envs env).envIpcDstva < utop ∧ NoTable s env)

/-- When the code keeps the contract: an aligned `srcva` is mapped, and the bits of the entry happen
    to cover `perm` exactly if the contract allows it. The field `env_ipc_perm`, which the code
    leaves alone when no page is sent, is then still 0. -/
structure SendOk (s : KState) (cur env : EnvIdx) (srcva perm : Word) : Prop where
  mapped : srcva < utop → srcva = rounddown srcva → mappedAt s cur srcva ≠ none
  bits : srcva < utop → srcva = rounddown srcva →
    (Covers s cur srcva perm ↔ permOk perm = true ∧
      (perm &&& pteW ≠ 0 → pteOf s cur srcva &&& pteW ≠ 0))
  cleared : (srcva < utop → MaySend s cur srcva perm) →
    ¬ (srcva < utop ∧ (s.envs env).envIpcDstva < utop) → (s.envs env).envIpcPerm = 0

section

variable {c : CpuIdx} {cur env : EnvIdx} {s : KState} {L : List Nat}
  {envid value srcva perm : Word} {d d' : Nat}

/-- With the bits covered, the separate test of `PTE_W` never fails. -/
theorem Covers.write {w perm : Word} (h : w &&& perm &&& pteSyscall = perm &&& pteSyscall) :
    ¬ (perm &&& pteW ≠ 0 ∧ w &&& pteW = 0) := by
  rintro ⟨hp, hw⟩
  refine hp ?_
  have hsub : pteSyscall &&& pteW = pteW := by decide
  calc perm &&& pteW = (perm &&& pteSyscall) &&& pteW := by rw [BitVec.and_assoc, hsub]
    _ = (w &&& perm &&& pteSyscall) &&& pteW := by rw [h]
    _ = (w &&& pteW) &&& perm := by
      rw [BitVec.and_assoc, hsub, BitVec.and_assoc, BitVec.and_comm perm, ← BitVec.and_assoc]
    _ = 0 := by rw [hw]; simp

/-- The outcome of the page part of a send. -/
theorem ipcSendPage_run (perm : Word) (h : PageInv s L ∅) (hc : s.curenv c = some cur)
    (hd : (s.envs cur).envPgdir = some d) (hd' : (s.envs env).envPgdir = some d')
    (hsrc : srcva < utop) (inp : Input) :
    (srcva ≠ rounddown srcva ∧ ipcSendPage c inp env srcva perm s = .ok (.error .inval) s) ∨
    (srcva = rounddown srcva ∧ mappedAt s cur srcva = none ∧
      ipcSendPage c inp env srcva perm s = match inp.strayPte with
        | none => .error .panic s
        | some _ => .ok (.error .inval) s) ∨
    (srcva = rounddown srcva ∧ mappedAt s cur srcva ≠ none ∧ ¬ Covers s cur srcva perm ∧
      ipcSendPage c inp env srcva perm s = .ok (.error .inval) s) ∨
    (srcva = rounddown srcva ∧ Covers s cur srcva perm ∧ ∃ f, mappedAt s cur srcva = some f ∧
      ((utop ≤ (s.envs env).envIpcDstva ∧ ipcSendPage c inp env srcva perm s = .ok (.ok ()) s) ∨
      ((s.envs env).envIpcDstva < utop ∧ NoTable s env ∧
        ipcSendPage c inp env srcva perm s = .ok (.error .noMem) s) ∨
      ((s.envs env).envIpcDstva < utop ∧ ∃ t, t.envs = s.envs ∧ t.curenv c = s.curenv c ∧
        pteOf t env (s.envs env).envIpcDstva = page2pa f ||| perm ||| pteP ∧
        ipcSendPage c inp env srcva perm s =
          .ok (.ok ()) (t.setEnv env { t.envs env with envIpcPerm := perm })))) := by
  have hi : pdx srcva < utopPdx := pdx_lt_utopPdx.mpr hsrc
  have hcur := getCurenv_run hc
  have hpg : getPgdir cur s = .ok d s := by simp only [getPgdir, run_bind, run_get, hd, run_pure]
  have hpg' : getPgdir env s = .ok d' s := by
    simp only [getPgdir, run_bind, run_get, hd', run_pure]
  by_cases ha : srcva = rounddown srcva
  · right
    have ha' : ¬ srcva ≠ rounddown srcva := not_not.mpr ha
    rcases pageLookup_run h hd hi with ⟨hn, hrun⟩ | ⟨f, T, hf, -, hrun, hent⟩
    · refine Or.inl ⟨ha, hn, ?_⟩
      simp only [ipcSendPage, run_bind, hcur, hpg, hrun, if_neg ha']
      cases inp.strayPte <;> rfl
    · right
      have hw : s.entry (T, ptx srcva) = pteOf s cur srcva := hent
      by_cases hcov : Covers s cur srcva perm
      · refine Or.inr ⟨ha, hcov, f, hf, ?_⟩
        have h1 : ¬ (s.entry (T, ptx srcva) &&& perm &&& pteSyscall ≠ perm &&& pteSyscall) := by
          rw [hw]
          exact not_not.mpr hcov
        have h2 : ¬ (perm &&& pteW ≠ 0 ∧ s.entry (T, ptx srcva) &&& pteW = 0) := by
          rw [hw]
          exact Covers.write hcov
        by_cases hdst : (s.envs env).envIpcDstva < utop
        · obtain ⟨hM, hfree, hnt⟩ := insertable h hf
          rcases pageInsert_spec c perm h hd' (pdx_lt_utopPdx.mpr hdst) hM (hfree L h) hnt with
            ⟨hT, rfl, hins⟩ | ⟨t, hins, hmap⟩
          · refine Or.inr (Or.inl ⟨hdst, ⟨hT, h.chain⟩, ?_⟩)
            simp only [ipcSendPage, run_bind, hcur, hpg, hrun, run_ite, if_neg ha', run_get,
              if_neg h1, if_neg h2, if_pos hdst, hpg', hins, run_pure]
          · refine Or.inr (Or.inr ⟨hdst, t, hmap.edit.only.envs, congrFun hmap.edit.only.curenv c,
              hmap.entry, ?_⟩)
            simp only [ipcSendPage, run_bind, hcur, hpg, hrun, run_ite, if_neg ha', run_get,
              if_neg h1, if_neg h2, if_pos hdst, hpg', hins, run_pure, run_modify]
        · refine Or.inl ⟨BitVec.not_lt.mp hdst, ?_⟩
          simp only [ipcSendPage, run_bind, hcur, hpg, hrun, run_ite, if_neg ha', run_get,
            if_neg h1, if_neg h2, if_neg hdst, run_pure]
      · refine Or.inl ⟨ha, by rw [mappedAt, hf]; simp, hcov, ?_⟩
        have h1 : s.entry (T, ptx srcva) &&& perm &&& pteSyscall ≠ perm &&& pteSyscall := by
          rw [hw]
          exact hcov
        simp only [ipcSendPage, run_bind, hcur, hpg, hrun, run_ite, if_neg ha', run_get, if_pos h1,
          run_pure]
  · left
    refine ⟨ha, ?_⟩
    rcases pageLookup_run h hd hi with ⟨-, hrun⟩ | ⟨f, T, -, -, hrun, -⟩ <;>
      simp only [ipcSendPage, run_bind, hcur, hpg, hrun, if_pos ha, run_pure]

/-- A target that does not wait ends the call at once. -/
theorem sysIpcTrySend_deaf (hc : s.curenv c = some cur)
    (hl : lookupEnv s cur envid false = some env) (hr : (s.envs env).envIpcRecving = false)
    (inp : Input) :
    sysIpcTrySend c inp envid value srcva perm s = .ok (.error .ipcNotRecv) s := by
  simp only [sysIpcTrySend, run_bind, envid2env_run hc, hl, run_get, hr, run_ite, if_pos, run_pure]

theorem sysIpcTrySend_missing (hc : s.curenv c = some cur)
    (hl : lookupEnv s cur envid false = none) (inp : Input) :
    sysIpcTrySend c inp envid value srcva perm s = .ok (.error .badEnv) s := by
  simp only [sysIpcTrySend, run_bind, envid2env_run hc, hl, run_pure]

/-- The receiver once it has the message. -/
def received (s : KState) (cur env : EnvIdx) (value : Word) : KState :=
  s.setEnv env { s.envs env with
    envIpcRecving := false
    envIpcFrom := (s.envs cur).envId
    envIpcValue := value
    envStatus := .runnable
    envTf := (s.envs env).envTf.withEax 0 }

theorem ipcDeliver_run (hc : s.curenv c = some cur) :
    ipcDeliver c env value s = .ok () (received s cur env value) := by
  simp only [ipcDeliver, run_bind, getCurenv_run hc, run_modify]
  rfl

/-- A waiting target and no page to send: the message is delivered. -/
theorem sysIpcTrySend_plain (hc : s.curenv c = some cur) (ha : Awaits s cur envid env)
    (hsrc : ¬ srcva < utop) (inp : Input) :
    sysIpcTrySend c inp envid value srcva perm s = .ok (.ok 0) (received s cur env value) := by
  have hr : ¬ (s.envs env).envIpcRecving = false := by simp [ha.2]
  simp only [sysIpcTrySend, run_bind, envid2env_run hc, ha.1, run_get, run_ite, if_neg hr,
    if_neg hsrc, run_pure, ipcDeliver_run hc]

/-- A waiting target and a page to send: the page part decides. -/
theorem sysIpcTrySend_page (value perm : Word) (hc : s.curenv c = some cur) (ha : Awaits s cur envid env)
    (hsrc : srcva < utop) (inp : Input) :
    sysIpcTrySend c inp envid value srcva perm s =
      match ipcSendPage c inp env srcva perm s with
      | .ok (.error err) t => .ok (.error err) t
      | .ok (.ok ()) t => (ipcDeliver c env value >>= fun _ => pure (.ok 0)) t
      | .error x t => .error x t := by
  have hr : ¬ (s.envs env).envIpcRecving = false := by simp [ha.2]
  simp only [sysIpcTrySend, run_bind, envid2env_run hc, ha.1, run_get, run_ite, if_neg hr,
    if_pos hsrc]
  rcases ipcSendPage c inp env srcva perm s with ⟨_ | _, t⟩ | ⟨x, t⟩ <;> rfl

/-- With an aligned `srcva` below `UTOP`, the contract leaves the code no choice but `MaySend`. -/
theorem maySend_iff (ha : srcva = rounddown srcva) (hm : mappedAt s cur srcva ≠ none) :
    MaySend s cur srcva perm ↔ permOk perm = true ∧
      (perm &&& pteW ≠ 0 → pteOf s cur srcva &&& pteW ≠ 0) :=
  ⟨fun h => ⟨h.bits, h.write⟩, fun h => ⟨ha, h.1, hm, h.2⟩⟩

@[simp] theorem received_env (s : KState) (cur env : EnvIdx) (value : Word) :
    (received s cur env value).envs env = { s.envs env with
      envIpcRecving := false
      envIpcFrom := (s.envs cur).envId
      envIpcValue := value
      envStatus := .runnable
      envTf := (s.envs env).envTf.withEax 0 } := by
  simp [received, KState.setEnv]

/-- Delivering the message leaves all tables as they are. -/
theorem received_pteOf (s : KState) (cur env e : EnvIdx) (value va : Word) :
    pteOf (received s cur env value) e va = pteOf s e va := by
  have hd : ∀ x, ((received s cur env value).envs x).envPgdir = (s.envs x).envPgdir := by
    intro x
    by_cases hx : x = env
    · subst hx
      simp
    · simp [received, KState.setEnv, hx]
  have ht : pteAt (received s cur env value) = pteAt s :=
    (tables_congr (s := s) (t := received s cur env value) rfl hd rfl).2
  unfold pteOf
  rw [ht]

theorem sent_plain (hperm : (s.envs env).envIpcPerm = 0)
    (hno : ¬ (srcva < utop ∧ (s.envs env).envIpcDstva < utop)) :
    Sent s (received s cur env value) cur env value srcva perm :=
  ⟨by simp [Trapframe.withEax], fun h1 h2 => absurd ⟨h1, h2⟩ hno, fun _ => ⟨rfl, by simpa using hperm⟩⟩

theorem sent_page {t : KState} {f : Nat} (hE : t.envs = s.envs) (hf : mappedAt s cur srcva = some f)
    (hent : pteOf t env (s.envs env).envIpcDstva = page2pa f ||| perm ||| pteP)
    (hok : permOk perm = true) (hyes : srcva < utop ∧ (s.envs env).envIpcDstva < utop) :
    Sent s (received (t.setEnv env { t.envs env with envIpcPerm := perm }) cur env value) cur env
      value srcva perm := by
  have hid : ((t.setEnv env { t.envs env with envIpcPerm := perm }).envs cur).envId
      = (s.envs cur).envId := by
    rw [← hE]
    by_cases hx : cur = env
    · subst hx
      simp [KState.setEnv]
    · simp [KState.setEnv, hx]
  have hsame : Alike t (t.setEnv env { t.envs env with envIpcPerm := perm }) :=
    Alike.setEnv rfl rfl Iff.rfl
  refine ⟨⟨by simp, ?_, by simp, by simp, by simp [Trapframe.withEax]⟩, fun _ _ => ?_,
    fun hno => absurd hyes hno⟩
  · rw [received_env]
    exact hid
  · refine ⟨f, hf, ?_, ?_, ?_⟩
    · rw [received_pteOf, ← hent]
      unfold pteOf
      rw [hsame.tables.2]
    · rw [received_env]
      simp [KState.setEnv]
    · rintro rfl
      exact absurd hok (by decide)

/-- All outcomes of a send with a page to a waiting target. -/
theorem sysIpcTrySend_run (value perm : Word) (h : PageInv s L ∅) (hc : s.curenv c = some cur)
    (hd : (s.envs cur).envPgdir = some d) (hd' : (s.envs env).envPgdir = some d')
    (haw : Awaits s cur envid env) (hsrc : srcva < utop) (inp : Input) :
    (srcva ≠ rounddown srcva ∧
      sysIpcTrySend c inp envid value srcva perm s = .ok (.error .inval) s) ∨
    (srcva = rounddown srcva ∧ mappedAt s cur srcva = none ∧
      sysIpcTrySend c inp envid value srcva perm s = match inp.strayPte with
        | none => .error .panic s
        | some _ => .ok (.error .inval) s) ∨
    (srcva = rounddown srcva ∧ mappedAt s cur srcva ≠ none ∧ ¬ Covers s cur srcva perm ∧
      sysIpcTrySend c inp envid value srcva perm s = .ok (.error .inval) s) ∨
    (srcva = rounddown srcva ∧ mappedAt s cur srcva ≠ none ∧ Covers s cur srcva perm ∧
      ((¬ (srcva < utop ∧ (s.envs env).envIpcDstva < utop) ∧
        sysIpcTrySend c inp envid value srcva perm s = .ok (.ok 0) (received s cur env value)) ∨
      ((s.envs env).envIpcDstva < utop ∧ NoTable s env ∧
        sysIpcTrySend c inp envid value srcva perm s = .ok (.error .noMem) s) ∨
      ∃ t, sysIpcTrySend c inp envid value srcva perm s = .ok (.ok 0) t ∧
        (s.envs env).envIpcDstva < utop ∧
        (permOk perm = true → Sent s t cur env value srcva perm))) := by
  have hpage := sysIpcTrySend_page value perm hc haw hsrc inp
  rcases ipcSendPage_run perm h hc hd hd' hsrc inp with
    ⟨ha, hr⟩ | ⟨ha, hm, hr⟩ | ⟨ha, hm, hcov, hr⟩ | ⟨ha, hcov, f, hf, hr⟩
  · rw [hr] at hpage
    exact Or.inl ⟨ha, hpage⟩
  · refine Or.inr (Or.inl ⟨ha, hm, ?_⟩)
    rw [hpage, hr]
    cases inp.strayPte <;> rfl
  · rw [hr] at hpage
    exact Or.inr (Or.inr (Or.inl ⟨ha, hm, hcov, hpage⟩))
  · refine Or.inr (Or.inr (Or.inr ⟨ha, by rw [hf]; simp, hcov, ?_⟩))
    rcases hr with ⟨hdst, hr⟩ | ⟨hdst, hno, hr⟩ | ⟨hdst, t, hE, hct, hent, hr⟩ <;> rw [hr] at hpage
    · refine Or.inl ⟨fun hx => BitVec.not_lt.mpr hdst hx.2, ?_⟩
      rw [hpage]
      simp only [run_bind, ipcDeliver_run hc, run_pure]
    · exact Or.inr (Or.inl ⟨hdst, hno, hpage⟩)
    · refine Or.inr (Or.inr ⟨_, ?_, hdst, fun hok => sent_page hE hf hent hok ⟨hsrc, hdst⟩⟩)
      have hct' : (t.setEnv env { t.envs env with envIpcPerm := perm }).curenv c = some cur :=
        hct.trans hc
      rw [hpage]
      simp only [run_bind, ipcDeliver_run hct', run_pure]

/-- What the contract forces on the state of a waiting target. -/
theorem SendContract.ok (hcon : SendContract s c cur envid value srcva perm) (h : PageInv s L ∅)
    (hc : s.curenv c = some cur) (hd : (s.envs cur).envPgdir = some d)
    (hd' : (s.envs env).envPgdir = some d') (haw : Awaits s cur envid env) :
    SendOk s cur env srcva perm := by
  have hrun := fun hsrc : srcva < utop =>
    sysIpcTrySend_run value perm h hc hd hd' haw hsrc .plain
  have hm : srcva < utop → srcva = rounddown srcva → mappedAt s cur srcva ≠ none := by
    intro hsrc ha hm
    have href := hcon.refused env haw hsrc (fun hx => hx.mapped hm) .plain
    rcases hrun hsrc with ⟨hna, -⟩ | ⟨-, -, hr⟩ | ⟨-, hx, -⟩ | ⟨-, hx, -⟩
    · exact hna ha
    · rw [href] at hr
      cases hr
    · exact hx hm
    · exact hx hm
  refine ⟨hm, fun hsrc ha => ?_, fun hmay hno => ?_⟩
  · rw [← maySend_iff ha (hm hsrc ha)]
    constructor
    · intro hcov
      by_contra hmay
      have href := hcon.refused env haw hsrc hmay .plain
      rcases hrun hsrc with ⟨hna, -⟩ | ⟨-, hx, -⟩ | ⟨-, -, hx, -⟩ |
        ⟨-, -, -, ⟨-, hr⟩ | ⟨-, -, hr⟩ | ⟨t, hr, -⟩⟩
      · exact hna ha
      · exact hm hsrc ha hx
      · exact hx hcov
      all_goals
        rw [href] at hr
        cases hr
    · intro hmay
      have hacc := hcon.accepted env haw (fun _ => hmay) .plain
      rcases hrun hsrc with ⟨hna, -⟩ | ⟨-, hx, -⟩ | ⟨-, -, -, hr⟩ | ⟨-, -, hcov, -⟩
      · exact absurd ha hna
      · exact absurd hx (hm hsrc ha)
      · rw [hr] at hacc
        rcases hacc with ⟨t, hr', -⟩ | ⟨hr', -⟩ <;> cases hr'
      · exact hcov
  · have hsent : sysIpcTrySend c .plain envid value srcva perm s
        = .ok (.ok 0) (received s cur env value) → (s.envs env).envIpcPerm = 0 := by
      intro hr
      have hacc := hcon.accepted env haw hmay .plain
      rw [hr] at hacc
      rcases hacc with ⟨t, ht, hs⟩ | ⟨ht, -⟩
      · cases ht
        simpa using (hs.noPage hno).2
      · cases ht
    by_cases hsrc : srcva < utop
    · rcases hrun hsrc with ⟨hna, -⟩ | ⟨-, hx, -⟩ | ⟨-, -, -, hr⟩ |
        ⟨-, -, -, ⟨-, hr⟩ | ⟨hdst, -⟩ | ⟨t, -, hdst, -⟩⟩
      · exact absurd (hmay hsrc).aligned hna
      · exact absurd hx (hmay hsrc).mapped
      · have hacc := hcon.accepted env haw hmay .plain
        rw [hr] at hacc
        rcases hacc with ⟨t, hr', -⟩ | ⟨hr', -⟩ <;> cases hr'
      · exact hsent hr
      · exact absurd ⟨hsrc, hdst⟩ hno
      · exact absurd ⟨hsrc, hdst⟩ hno
    · exact hsent (sysIpcTrySend_plain hc haw hsrc _)

/-- A waiting target in such a state is sent to as the contract says. -/
theorem SendOk.accepted (hok : SendOk s cur env srcva perm) (h : PageInv s L ∅)
    (hc : s.curenv c = some cur) (hd : (s.envs cur).envPgdir = some d)
    (hd' : (s.envs env).envPgdir = some d') (haw : Awaits s cur envid env)
    (hmay : srcva < utop → MaySend s cur srcva perm) (inp : Input) :
    (∃ t, sysIpcTrySend c inp envid value srcva perm s = .ok (.ok 0) t ∧
      Sent s t cur env value srcva perm) ∨
    (sysIpcTrySend c inp envid value srcva perm s = .ok (.error .noMem) s ∧
      srcva < utop ∧ (s.envs env).envIpcDstva < utop ∧ NoTable s env) := by
  by_cases hsrc : srcva < utop
  · have hcov : Covers s cur srcva perm := (hok.bits hsrc (hmay hsrc).aligned).mpr
      ⟨(hmay hsrc).bits, (hmay hsrc).write⟩
    rcases sysIpcTrySend_run value perm h hc hd hd' haw hsrc inp with
      ⟨hna, -⟩ | ⟨-, hx, -⟩ | ⟨-, -, hx, -⟩ |
        ⟨-, -, -, ⟨hno, hr⟩ | ⟨hdst, hnt, hr⟩ | ⟨t, hr, -, hs⟩⟩
    · exact absurd (hmay hsrc).aligned hna
    · exact absurd hx (hmay hsrc).mapped
    · exact absurd hcov hx
    · exact Or.inl ⟨_, hr, sent_plain (hok.cleared hmay hno) hno⟩
    · exact Or.inr ⟨hr, hsrc, hdst, hnt⟩
    · exact Or.inl ⟨t, hr, hs (hmay hsrc).bits⟩
  · have hno : ¬ (srcva < utop ∧ (s.envs env).envIpcDstva < utop) := fun hx => hsrc hx.1
    exact Or.inl ⟨_, sysIpcTrySend_plain hc haw hsrc inp, sent_plain (hok.cleared hmay hno) hno⟩

/-- `sys_ipc_try_send` keeps its contract exactly when `SendOk` holds for a target that waits. -/
theorem send_contract_iff (h : PageInv s L ∅) (hE : ∃ Le, EnvList s Le)
    (hlive : (s.envs cur).envStatus ≠ .free) (hc : s.curenv c = some cur) :
    SendContract s c cur envid value srcva perm ↔
      ∀ env, Awaits s cur envid env → SendOk s cur env srcva perm := by
  obtain ⟨Le, hLe⟩ := hE
  have hdir : ∀ e, (s.envs e).envStatus ≠ .free → ∃ d, (s.envs e).envPgdir = some d :=
    fun e he => Option.ne_none_iff_exists'.mp fun hn => he ((hLe.dir e).mp hn)
  obtain ⟨d, hd⟩ := hdir cur hlive
  constructor
  · intro hcon env haw
    obtain ⟨d', hd'⟩ := hdir env (lookupEnv_live hlive haw.1)
    exact hcon.ok h hc hd hd' haw
  · intro hok
    refine ⟨fun hl inp => sysIpcTrySend_missing hc hl inp,
      fun env hl hr inp => sysIpcTrySend_deaf hc hl hr inp, fun env haw hsrc hmay inp => ?_,
      fun env haw hmay inp => ?_⟩
    · obtain ⟨d', hd'⟩ := hdir env (lookupEnv_live hlive haw.1)
      rcases sysIpcTrySend_run value perm h hc hd hd' haw hsrc inp
        with ⟨-, hr⟩ | ⟨ha, hm, -⟩ | ⟨-, -, -, hr⟩ | ⟨ha, hm, hcov, -⟩
      · exact hr
      · exact absurd hm ((hok env haw).mapped hsrc ha)
      · exact hr
      · exact absurd ((maySend_iff ha hm).mpr (((hok env haw).bits hsrc ha).mp hcov)) hmay
    · obtain ⟨d', hd'⟩ := hdir env (lookupEnv_live hlive haw.1)
      exact (hok env haw).accepted h hc hd hd' haw hmay inp

end

/-- The demonstration machine once its second program waits for a message, without a page. -/
theorem demo_waiting : ∃ s L, PageInv s L ∅ ∧ (∃ Le, EnvList s Le) ∧
    (s.envs 0).envStatus ≠ .free ∧ s.curenv 1 = some 0 ∧ Awaits s 0 4097 1 := by
  obtain ⟨s, L, -, hb, hL, -⟩ := demo_boots
  have hb1 : BootEnv 1 (s.envs 1) := by
    have hbe := hb.envs 1 (by decide)
    rwa [if_pos (by decide)] at hbe
  obtain ⟨v, -, h0⟩ := hb.first
  let w : Env := { s.envs 1 with
    envStatus := .notRunnable, envIpcRecving := true, envIpcDstva := utop }
  have hsame : Alike s (s.setEnv 1 w) := Alike.setEnv rfl rfl (by simp [w, hb1.status])
  have h0' : (s.setEnv 1 w).envs 0 = s.envs 0 := rfl
  have h1' : (s.setEnv 1 w).envs 1 = w := rfl
  obtain ⟨Le, hLe⟩ := hb.inv.core.envs
  refine ⟨s.setEnv 1 w, L, pageInv_congr hL hsame.mem hsame.dir hsame.pages hsame.freeList
    hsame.limits, ⟨Le, hLe.congr hsame.envFreeList hsame.dir hsame.link hsame.free⟩, ?_, hb.bsp.2, ?_,
    ?_⟩
  · rw [h0', h0]
    simp
  · have hx : envx 4097 = 1 := by decide
    have hid : w.envId = 4097 := hb1.envId
    unfold lookupEnv
    rw [if_neg (by decide), hx, h1', if_neg (not_or.mpr ⟨by simp [w], not_not.mpr hid⟩),
      if_neg (by simp)]
  · rw [h1']

/-- A send of page 0 with no permission at all. -/
theorem send_contract_iff_demo : ∃ s L, PageInv s L ∅ ∧ Awaits s 0 4097 1 ∧
    (SendContract s 1 0 4097 0 0 0 ↔ ∀ env, Awaits s 0 4097 env → SendOk s 0 env 0 0) := by
  obtain ⟨s, L, h, hE, hlive, hc, haw⟩ := demo_waiting
  exact ⟨s, L, h, haw, send_contract_iff h hE hlive hc⟩

/-- A send of page 0 with no permission at all breaks the contract, whether or not the page is
    mapped. -/
theorem send_accepts_no_permission : ¬ ∀ (s : KState) (L : List Nat) (c : CpuIdx) (cur : EnvIdx)
    (envid value srcva perm : Word), PageInv s L ∅ → (∃ Le, EnvList s Le) →
    (s.envs cur).envStatus ≠ .free → s.curenv c = some cur →
    SendContract s c cur envid value srcva perm := by
  intro hall
  obtain ⟨s, L, h, ⟨Le, hLe⟩, hlive, hc, haw⟩ := demo_waiting
  have hdir : ∀ e, (s.envs e).envStatus ≠ .free → ∃ d, (s.envs e).envPgdir = some d :=
    fun e he => Option.ne_none_iff_exists'.mp fun hn => he ((hLe.dir e).mp hn)
  obtain ⟨d, hd⟩ := hdir 0 hlive
  obtain ⟨d', hd'⟩ := hdir 1 (lookupEnv_live hlive haw.1)
  have hok := (hall s L 1 0 4097 0 0 0 h ⟨Le, hLe⟩ hlive hc).ok h hc hd hd' haw
  have hcov : Covers s 0 0 0 := by simp [Covers]
  have hperm := ((hok.bits (by decide) (by decide)).mp hcov).1
  revert hperm
  decide

end Jos
