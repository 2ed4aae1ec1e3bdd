import Jos.Zombie

/-!
  Messages between environments, over whole runs.

  A receiver is blocked from its `sys_ipc_recv` up to the one send that succeeds. Nothing but
  `env_status` keeps it from running, and `sys_env_set_status` writes that without a look at
  `env_ipc_recving`. -/

namespace Jos

open Lib RefCount

/-- The fields of an environment that messages go through. -/
structure Mail where
  envIpcRecving : Bool
  envIpcDstva : Word
  envIpcValue : Word
  envIpcFrom : Word
  envIpcPerm : Word

def Env.mail (v : Env) : Mail :=
  ⟨v.envIpcRecving, v.envIpcDstva, v.envIpcValue, v.envIpcFrom, v.envIpcPerm⟩

/-- `e` waits for a message. -/
def Blocked (s : KState) (e : EnvIdx) : Prop :=
  (s.envs e).envStatus ≠ .free ∧ (s.envs e).envIpcRecving = true

/-- In the step, `e` calls `sys_ipc_recv` with an acceptable address. -/
def Receives (e : EnvIdx) (s : KState) (l : CpuIdx × Event) (_ : KState) : Prop :=
  ∃ call, Calls s l e call ∧ call.no = 12 ∧ ¬ (call.a1 < utop ∧ pgoff call.a1 ≠ 0)

/-- In the step, `cur` calls `sys_ipc_try_send` with the id of `e`. -/
def Tries (s : KState) (l : CpuIdx × Event) (cur : EnvIdx) (call : Call) (e : EnvIdx) : Prop :=
  Calls s l cur call ∧ call.no = 11 ∧ lookupEnv s cur call.a1 false = some e

/-- What `cur` finds in `eax` when it runs again. -/
def eaxOf (t : KState) (cur : EnvIdx) : Word := (t.envs cur).envTf.tfRegs.regEax

/-- The step is a send to `e` that succeeds. -/
def Sends (e : EnvIdx) (s : KState) (l : CpuIdx × Event) (t : KState) : Prop :=
  ∃ cur call, Tries s l cur call e ∧ eaxOf t cur = 0

/-- The step is a kernel entry of the CPU that executes `e`. -/
def Traps (e : EnvIdx) (s : KState) (l : CpuIdx × Event) : Prop := ∃ k, Executes s k e ∧ Enters k l

/-- A system call in the step may change the entry of `e` for `va`. -/
def Remaps (e : EnvIdx) (va : Word) (s : KState) (l : CpuIdx × Event) : Prop :=
  ∃ cur call, Calls s l cur call ∧ EditsEntry s cur call e (pdx va) (ptx va)

/-- The step frees `e`, which was waiting. -/
def Lapses (e : EnvIdx) (s : KState) (l : CpuIdx × Event) (t : KState) : Prop :=
  Blocked s e ∧ Frees e s l t

/-- The message of `call` has reached `e`, which was waiting for one: it will return 0 from
    `sys_ipc_recv`, and it finds the value, the sender's id, the permission and the page. -/
structure Delivered (s : KState) (cur : EnvIdx) (call : Call) (e : EnvIdx) (t : KState) : Prop where
  waiting : Blocked s e
  woken : Eligible (t.envs e)
  frame : (t.envs e).envTf = (s.envs e).envTf.withEax 0
  mail : (t.envs e).mail = ⟨false, (s.envs e).envIpcDstva, call.a2, (s.envs cur).envId,
    if call.a3 < utop ∧ (s.envs e).envIpcDstva < utop then call.a4 else 0⟩
  page : call.a3 < utop → (s.envs e).envIpcDstva < utop → ∃ f, mappedAt s cur call.a3 = some f ∧
    mappedAt t e (s.envs e).envIpcDstva = some f ∧
    pteOf t e (s.envs e).envIpcDstva = page2pa f ||| call.a4 ||| pteP

open Classical in
/-- One if `e` waits for a message. -/
noncomputable def pending (e : EnvIdx) (s : KState) : Nat := if Blocked s e then 1 else 0

/-- Messages in state `s` and from there on, in steps that meet `ok`. -/
structure ExactlyOnce (ok : KState → CpuIdx × Event → Prop) (s : KState) : Prop where
  asleep : ∀ e, Blocked s e → (s.envs e).envStatus = .notRunnable ∧ Asleep e s
  begins : ∀ e l t, ok s l → Step s l t → Receives e s l t → ¬ Blocked s e ∧ Blocked t e
  waits : ∀ e ls u, Blocked s e →
    Counted (restrict ok Step) (fun s l t => Sends e s l t ∨ Frees e s l t) s ls 0 u →
    Blocked u e ∧ (u.envs e).mail = (s.envs e).mail ∧ (u.envs e).envTf = (s.envs e).envTf
  sent : ∀ l cur call e t, ok s l → Step s l t → Tries s l cur call e → eaxOf t cur = 0 →
    Delivered s cur call e t
  refused : ∀ l cur call e t, ok s l → Step s l t → Tries s l cur call e → eaxOf t cur ≠ 0 →
    ∀ x, (t.envs x).mail = (s.envs x).mail
  resumes : ∀ e ls u, (s.envs e).envStatus ≠ .free → ¬ Blocked s e →
    Counted (restrict ok Step) (fun s l t => Traps e s l ∨ Frees e s l t) s ls 0 u →
    (u.envs e).envTf = (s.envs e).envTf
  reads : ∀ e ls u, (s.envs e).envStatus ≠ .free → ¬ Blocked s e →
    Counted (restrict ok Step) (fun s l t => Receives e s l t ∨ Frees e s l t) s ls 0 u →
    (u.envs e).mail = (s.envs e).mail
  keepsPage : ∀ e va ls u, (s.envs e).envStatus ≠ .free →
    Counted (restrict ok Step) (fun s l t => Remaps e va s l ∨ Frees e s l t) s ls 0 u →
    pteOf u e va = pteOf s e va
  tally : ∀ e ls u p q r, Counted (restrict ok Step) (Receives e) s ls p u →
    Counted (restrict ok Step) (Sends e) s ls q u →
    Counted (restrict ok Step) (Lapses e) s ls r u →
    pending e s + p = pending e u + q + r

/-- `sys_env_set_status` that makes a waiting environment runnable. -/
def Rouses (s : KState) (cur : EnvIdx) (call : Call) (e : EnvIdx) : Prop :=
  SetsStatus s cur call e ∧ statusOfWord call.a2 = some .runnable ∧ Blocked s e

/-- The step stays clear of the kernel's unguarded cases and makes no waiting environment
    runnable. -/
def LeavesBlocked (s : KState) (l : CpuIdx × Event) : Prop :=
  Careful True s l ∧ ∀ cur call e, Calls s l cur call → ¬ Rouses s cur call e

/-- What is kept in every such run. -/
structure MailInv (s : KState) : Prop where
  exclusive : Exclusive Every s
  inv : Inv True s
  asleep : ∀ e, Blocked s e → (s.envs e).envStatus = .notRunnable ∧ Asleep e s ∧
    (s.envs e).envIpcPerm = 0

section

variable {c k : CpuIdx} {cur e : EnvIdx} {s t u m : KState} {tf : Trapframe} {inp : Input}
  {call : Call} {ev : Event} {l : CpuIdx × Event}

/-! ### Records -/

/-- Leaving the kernel keeps messages and frames. -/
theorem Exits.record (h : Exits c m t) (e : EnvIdx) :
    (t.envs e).mail = (m.envs e).mail ∧ (t.envs e).envTf = (m.envs e).envTf := by
  have hrun : ∀ {x : EnvIdx}, Runs c x m t →
      (t.envs e).mail = (m.envs e).mail ∧ (t.envs e).envTf = (m.envs e).envTf := by
    rintro x ⟨pd, -, rfl⟩
    have hpre : ∀ y, ((preempt c m).envs y).mail = (m.envs y).mail ∧
        ((preempt c m).envs y).envTf = (m.envs y).envTf := by
      intro y
      rw [preempt_envs]
      split <;> exact ⟨rfl, rfl⟩
    rw [resume_envs]
    split
    · rename_i hx
      subst hx
      exact hpre e
    · exact hpre e
  cases h with
  | pick _ hr => exact hrun hr
  | stay _ hr => exact hrun hr
  | halt _ ht =>
    subst ht
    exact ⟨rfl, rfl⟩

/-- What a CPU executes when it leaves the kernel is marked as running. -/
theorem Exits.executes (h : Exits c m t) (hk : Executes t c e) : (t.envs e).envStatus = .running := by
  have hrun : ∀ {x : EnvIdx}, Runs c x m t → (t.envs e).envStatus = .running := by
    intro x hr
    obtain rfl := Option.some.inj (hk.2.symm.trans hr.inUser.1.current)
    exact hr.inUser.2
  cases h with
  | pick _ hr => exact hrun hr
  | stay _ hr => exact hrun hr
  | halt _ ht =>
    subst ht
    have hm := hk.1
    rw [halted_cpus, Function.update_self] at hm
    cases hm

/-- What has stopped is not chosen. -/
theorem Yields.stopped (h : Yields c m t) (he : (m.envs e).envStatus = .notRunnable) :
    (t.envs e).envStatus = .notRunnable := by
  have hrun : ∀ {x : EnvIdx}, e ≠ x → Runs c x m t → (t.envs e).envStatus = .notRunnable := by
    rintro x hx ⟨pd, -, rfl⟩
    have hno : ¬ (m.curenv c = some e ∧ (m.envs e).envStatus = .running) := by
      rw [he]
      simp
    rw [resume_envs, if_neg hx, preempt_envs, if_neg hno, he]
  cases h with
  | pick hp hr =>
    refine hrun (fun hx => ?_) hr
    have hs := schedPick_runnable hp
    rw [← hx, he] at hs
    cases hs
  | stay _ _ hs hr =>
    refine hrun (fun hx => ?_) hr
    rw [← hx, he] at hs
    cases hs
  | halt _ _ _ => exact he

/-- A system call that returns, and is no send to a waiting `e`, keeps its messages and frame. -/
theorem CallDone.record (h : CallDone s c cur call u) (hL : ∃ Le, EnvList s Le)
    (hlive : (s.envs e).envStatus ≠ .free) (hsend : ¬ SendsTo s cur call e) :
    (u.envs e).mail = (s.envs e).mail ∧ (u.envs e).envTf = (s.envs e).envTf := by
  have hset : ∀ {x : EnvIdx} {v : Env}, u.envs = Function.update s.envs x v →
      (e = x → v.mail = (s.envs x).mail ∧ v.envTf = (s.envs x).envTf) →
      (u.envs e).mail = (s.envs e).mail ∧ (u.envs e).envTf = (s.envs e).envTf := by
    intro x v hu hv
    rw [hu]
    rcases eq_or_ne e x with rfl | hx
    · rw [Function.update_self]
      exact hv rfl
    · rw [Function.update_of_ne hx]
      exact ⟨rfl, rfl⟩
  cases h with
  | nothing hu =>
    rw [hu.envs]
    exact ⟨rfl, rfl⟩
  | marked _ _ _ hu => exact hset hu.envs fun _ => ⟨rfl, rfl⟩
  | freed _ _ _ hu => exact hset hu.envs fun _ => ⟨rfl, rfl⟩
  | @forked x p _ hf hu =>
    obtain ⟨Le, hLe⟩ := hL
    have hx : e ≠ x := by
      rintro rfl
      exact hlive ((hLe.free e).mp (List.mem_of_head? (hLe.chain.head_eq.symm.trans hf)))
    rw [hu.envs]
    simp only [Jos.forked, KState.setEnv, Function.update_of_ne hx, and_self]
  | status _ _ _ hu => exact hset hu.envs fun _ => ⟨rfl, rfl⟩
  | upcall _ _ hu => exact hset hu.envs fun _ => ⟨rfl, rfl⟩
  | sent hno hl hr hu => exact hset hu.envs fun hx => absurd ⟨hno, hx ▸ hl, hx ▸ hr⟩ hsend

/-! ### One system call -/

theorem answered_record (u : KState) (cur x : EnvIdx) (w : Word) :
    ((answered u cur w).envs x).mail = (u.envs x).mail ∧
      (x ≠ cur → ((answered u cur w).envs x).envTf = (u.envs x).envTf) := by
  rcases eq_or_ne x cur with rfl | hx
  · exact ⟨by simp [answered, KState.setEnv, Env.mail], fun h => absurd rfl h⟩
  · simp [answered, KState.setEnv, hx]

theorem saved_mail (x : EnvIdx) : ((saved c cur tf s).envs x).mail = (s.envs x).mail := by
  rw [saved_envs]
  split
  · rename_i hx
    subst hx
    rfl
  · rfl

/-- The caller finds the result in `eax`. -/
theorem Returns.eax {w : Word} (h : Returns c (answered u cur w) t) : eaxOf t cur = w := by
  rw [eaxOf, (h.exits.record cur).2]
  simp [answered, KState.setEnv, Trapframe.withEax]

/-- A call that only returned a result. -/
theorem Returns.quiet {w : Word} (h : Returns c (answered (saved c cur tf s) cur w) t)
    (x : EnvIdx) : (t.envs x).mail = (s.envs x).mail ∧
      (x ≠ cur → (t.envs x).envTf = (s.envs x).envTf) := by
  obtain ⟨h1, h2⟩ := h.exits.record x
  obtain ⟨h3, h4⟩ := answered_record (saved c cur tf s) cur x w
  refine ⟨h1.trans (h3.trans (saved_mail x)), fun hx => h2.trans ((h4 hx).trans ?_)⟩
  rw [saved_envs, if_neg hx]

/-- `sys_ipc_recv`: the caller is blocked, or the address is refused. -/
theorem step_recv (hu : InUser s c cur) (hno : tf.tfTrapno = tSyscall)
    (h12 : (Call.ofTf tf).no = 12) (hst : Step s (c, .trap inp tf) t) :
    (¬ ((Call.ofTf tf).a1 < utop ∧ pgoff (Call.ofTf tf).a1 ≠ 0) ∧
      Yields c (receiving (saved c cur tf s) cur (Call.ofTf tf).a1) t) ∨
    ((Call.ofTf tf).a1 < utop ∧ pgoff (Call.ofTf tf).a1 ≠ 0) ∧
      ∃ w, Returns c (answered (saved c cur tf s) cur w) t := by
  have hc : (saved c cur tf s).curenv c = some cur := (saved_curenv tf c).trans hu.current
  have hsys : wp (syscall c inp tf.tfRegs.regEax tf.tfRegs.regEdx tf.tfRegs.regEcx tf.tfRegs.regEbx
      tf.tfRegs.regEdi tf.tfRegs.regEsi) (fun _ u => ((Call.ofTf tf).a1 < utop ∧
        pgoff (Call.ofTf tf).a1 ≠ 0) ∧ u = saved c cur tf s)
      (Leaves fun t => ¬ ((Call.ofTf tf).a1 < utop ∧ pgoff (Call.ofTf tf).a1 ≠ 0) ∧
        Yields c (receiving (saved c cur tf s) cur (Call.ofTf tf).a1) t) (saved c cur tf s) := by
    have hx : tf.tfRegs.regEax.toNat = 12 := h12
    unfold syscall
    rw [hx]
    unfold sysIpcRecv
    simp only
    rw [wp_bind]
    refine wp_ite.mpr ⟨fun hva => ?_, fun hva => ?_⟩
    · simp only [wp_pure]
      exact ⟨hva, trivial⟩
    rw [wp_bind, wp_ok (getCurenv_run hc), wp_bind, wp_modify, wp_bind]
    exact schedYield_wp fun t hy => ⟨hva, hy⟩
  rcases step_syscall hu hno hst with ⟨w, u, hrun, hret⟩ | hrun
  · obtain ⟨hva, rfl⟩ := hsys.ok hrun
    exact Or.inr ⟨hva, w, trapReturn_returns hret⟩
  · exact Or.inl (hsys.error hrun rfl)

/-- `sys_ipc_try_send` to an environment that does not wait. -/
theorem step_not_recv (hu : InUser s c cur) (hno : tf.tfTrapno = tSyscall)
    (h11 : (Call.ofTf tf).no = 11) (hl : lookupEnv s cur (Call.ofTf tf).a1 false = some e)
    (hr : (s.envs e).envIpcRecving = false) (hst : Step s (c, .trap inp tf) t) :
    Returns c (answered (saved c cur tf s) cur Err.ipcNotRecv.code) t := by
  have hc : (saved c cur tf s).curenv c = some cur := (saved_curenv tf c).trans hu.current
  have hids := saved_ids s c cur tf e
  have hsys : syscall c inp tf.tfRegs.regEax tf.tfRegs.regEdx tf.tfRegs.regEcx tf.tfRegs.regEbx
      tf.tfRegs.regEdi tf.tfRegs.regEsi (saved c cur tf s)
      = .ok Err.ipcNotRecv.code (saved c cur tf s) := by
    have hl' : lookupEnv (saved c cur tf s) cur tf.tfRegs.regEdx false = some e :=
      (saved_lookup _ _ _).trans hl
    have hrun : sysIpcTrySend c inp tf.tfRegs.regEdx tf.tfRegs.regEcx tf.tfRegs.regEbx
        tf.tfRegs.regEdi (saved c cur tf s) = .ok (.error .ipcNotRecv) (saved c cur tf s) := by
      simp only [sysIpcTrySend, run_bind, envid2env_run hc, hl', run_get, run_ite,
        if_pos (hids.2.2.2.1.trans hr), run_pure]
    have hx : tf.tfRegs.regEax.toNat = 11 := h11
    unfold syscall
    rw [hx]
    simp only [run_bind, hrun]
    rfl
  rcases step_syscall hu hno hst with ⟨w, u, hrun, hret⟩ | hrun
  · rw [hsys] at hrun
    cases hrun
    exact trapReturn_returns hret
  · rw [hsys] at hrun
    cases hrun

theorem Err.code_ne_zero (err : Err) : err.code ≠ 0 := by
  cases err <;> decide

theorem MailInv.not_blocked (h : MailInv s) (hk : Executes s k e) : ¬ Blocked s e := fun hb =>
  (h.asleep e hb).2.1 k hk.1 hk.2

/-- `sys_ipc_try_send`: the message is delivered and the caller finds 0, or nothing has happened and
    it finds an error. -/
theorem MailInv.tries (h : MailInv s) (hok : LeavesBlocked s l) (hst : Step s l t)
    (ht : Tries s l cur call e) : eaxOf t cur = 0 ∧ Delivered s cur call e t ∨
      eaxOf t cur ≠ 0 ∧ ∀ x, (t.envs x).mail = (s.envs x).mail ∧
        (x ≠ cur → (t.envs x).envTf = (s.envs x).envTf) := by
  obtain ⟨c, ev⟩ := l
  obtain ⟨⟨inp, tf, rfl, hu, hno, rfl⟩, h11, hl⟩ := ht
  have hcur := (h.exclusive.status c cur trivial hu.mode hu.current).1
  have hlive := lookupEnv_live hcur hl
  by_cases hr : (s.envs e).envIpcRecving = false
  · have hret := step_not_recv hu hno h11 hl hr hst
    exact Or.inr ⟨by rw [hret.eax]; exact Err.code_ne_zero _, hret.quiet⟩
  have hrec : (s.envs e).envIpcRecving = true := by simpa using hr
  have hb : Blocked s e := ⟨hlive, hrec⟩
  have hne : e ≠ cur := fun hx => h.not_blocked (k := c) ⟨hu.mode, hx ▸ hu.current⟩ hb
  obtain ⟨L, hL⟩ := h.inv.core.page
  obtain ⟨Le, hLe⟩ := h.inv.core.envs
  obtain ⟨d, hd⟩ := Option.ne_none_iff_exists'.mp (mt (hLe.dir cur).mp hcur)
  obtain ⟨d', hd'⟩ := Option.ne_none_iff_exists'.mp (mt (hLe.dir e).mp hlive)
  rcases send_step hL hd hd' hu hno h11 ⟨hl, hrec⟩ hst with ⟨err, hret⟩ | ⟨u, hsent, hret⟩
  · exact Or.inr ⟨by rw [hret.eax]; exact Err.code_ne_zero _, hret.quiet⟩
  have hme : (saved c cur tf s).envs e = s.envs e := by rw [saved_envs, if_neg hne]
  have hid : ((saved c cur tf s).envs cur).envId = (s.envs cur).envId := (saved_ids s c cur tf cur).2.1
  obtain ⟨h1, h2⟩ := hret.exits.record e
  obtain ⟨h3, h4⟩ := answered_record u cur e 0
  have hrecord := hsent.record
  rw [hme, hid, (h.asleep e hb).2.2] at hrecord
  refine Or.inl ⟨hret.eax, hb, ?_, ?_, ?_, fun hsrc hdst => ?_⟩
  · refine (hret.rescheduled e).eligible.mpr (Or.inl ?_)
    rw [answered_status, hrecord]
  · rw [h2, h4 hne, hrecord]
  · rw [h1, h3, hrecord]
    rfl
  · have hdone : (t.envs e).envIpcRecving = false := by
      have hmail := h1.trans h3
      rw [hrecord] at hmail
      exact congrArg Mail.envIpcRecving hmail
    obtain ⟨f, hf, hent⟩ := sent_page_step hL hd hd' hu hno h11 ⟨hl, hrec⟩ hsrc hdst hst hdone
    have hids := saved_ids s c cur tf e
    have hperm : (Call.ofTf tf).a4 &&& ~~~pteSyscall = 0 :=
      (hok.1.2.2 inp tf cur rfl hu hno).perm e ⟨h11, (saved_lookup _ _ _).trans hl,
        hids.2.2.2.1.trans hrec, hsrc, by rw [hids.2.2.2.2]; exact hdst⟩
    have hlt : f < 2 ^ 20 := by
      have := (hL.lt_window (hL.counted.target _ f hf)).2
      omega
    refine ⟨f, hf, ?_, hent⟩
    show entryFrame (pteOf t e (s.envs e).envIpcDstva) = some f
    rw [hent]
    exact entryFrame_insert hlt hperm

/-! ### One step -/

/-- What a step does to the messages and the frame of `e`. -/
theorem MailInv.record (h : MailInv s) (hok : LeavesBlocked s l) (hst : Step s l t)
    (hlive : (s.envs e).envStatus ≠ .free) : Frees e s l t ∨ Receives e s l t ∨ Sends e s l t ∨
      (t.envs e).mail = (s.envs e).mail ∧
        (¬ Traps e s l → (t.envs e).envTf = (s.envs e).envTf) := by
  have hL : ∃ Le, EnvList s Le := h.inv.core.envs
  have htry : ∀ {cur call}, Tries s l cur call e → Sends e s l t ∨
      (t.envs e).mail = (s.envs e).mail ∧
        (¬ Traps e s l → (t.envs e).envTf = (s.envs e).envTf) := by
    intro cur call ht
    rcases h.tries hok hst ht with ⟨h0, -⟩ | ⟨-, hq⟩
    · exact Or.inl ⟨cur, call, ht, h0⟩
    · refine Or.inr ⟨(hq e).1, fun hno => (hq e).2 fun hx => hno ?_⟩
      obtain ⟨⟨inp, tf, hl, hu, -⟩, -⟩ := ht
      exact ⟨l.1, hx ▸ ⟨hu.mode, hu.current⟩, rfl, inp, tf, hl⟩
  obtain ⟨c, ev⟩ := l
  rcases step_exits hst with ⟨va, b, via, rfl, ho⟩ | ⟨m, hw, hx⟩
  · rw [ho.envs]
    exact Or.inr (Or.inr (Or.inr ⟨rfl, fun _ => rfl⟩))
  obtain ⟨h1, h2⟩ := hx.record e
  have hsame : m.envs e = s.envs e → (t.envs e).mail = (s.envs e).mail ∧
      (¬ Traps e s (c, ev) → (t.envs e).envTf = (s.envs e).envTf) := fun hm => by
    rw [h1, h2, hm]
    exact ⟨rfl, fun _ => rfl⟩
  cases hw with
  | idle henv _ => exact Or.inr (Or.inr (Or.inr (hsame (by rw [henv]))))
  | @framed inp tf tf' cur hk hoth hrec _ =>
    rcases eq_or_ne e cur with rfl | hne
    · rw [h1, hrec]
      exact Or.inr (Or.inr (Or.inr ⟨rfl, fun hno => absurd ⟨c, hk, rfl, inp, tf, rfl⟩ hno⟩))
    · exact Or.inr (Or.inr (Or.inr (hsame (hoth e hne))))
  | @died inp tf cur hk hoth hfree hcur =>
    rcases eq_or_ne e cur with rfl | hne
    · refine Or.inl ⟨hlive, ?_⟩
      rw [hx.still (by rw [hcur]; simp) (by rw [hfree]; simp), hfree]
    · exact Or.inr (Or.inr (Or.inr (hsame (hoth e hne))))
  | @received inp tf cur hu hno h12 hm =>
    subst hm
    rcases eq_or_ne e cur with rfl | hne
    · rcases step_recv hu hno h12 hst with ⟨hva, -⟩ | ⟨-, w, hret⟩
      · exact Or.inr (Or.inl ⟨_, ⟨inp, tf, rfl, hu, hno, rfl⟩, h12, hva⟩)
      · exact Or.inr (Or.inr (Or.inr ⟨(hret.quiet e).1, fun hn =>
          absurd ⟨c, ⟨hu.mode, hu.current⟩, rfl, inp, tf, rfl⟩ hn⟩))
    · exact Or.inr (Or.inr (Or.inr (hsame (receiving_envs_of_ne hne))))
  | @call inp tf cur u w hu hno hd hm =>
    subst hm
    by_cases hsend : SendsTo s cur (Call.ofTf tf) e
    · exact Or.inr (Or.inr (htry ⟨⟨inp, tf, rfl, hu, hno, rfl⟩, hsend.1, hsend.2.1⟩))
    obtain ⟨h3, h4⟩ := answered_record u cur e w
    have ha : Alike s (saved c cur tf s) := saved_alike tf
    obtain ⟨h5, h6⟩ := hd.record (e := e) (by
      obtain ⟨Le, hLe⟩ := hL
      exact ⟨Le, hLe.congr ha.envFreeList ha.dir ha.link ha.free⟩)
      (by rw [(saved_ids s c cur tf e).1]; exact hlive) (by rwa [saved_sendsTo])
    refine Or.inr (Or.inr (Or.inr ⟨h1.trans (h3.trans (h5.trans (saved_mail e))), fun hn => ?_⟩))
    have hne : e ≠ cur := fun hex => hn ⟨c, hex ▸ ⟨hu.mode, hu.current⟩, rfl, inp, tf, rfl⟩
    rw [h2, h4 hne, h6, saved_envs, if_neg hne]

/-- A system call leaves a stopped environment stopped, frees it, or ends its wait. -/
theorem CallDone.stopped (h : CallDone s c cur call u) (he : (s.envs e).envStatus = .notRunnable)
    (hno : ¬ (SetsStatus s cur call e ∧ statusOfWord call.a2 = some .runnable)) :
    (u.envs e).envStatus = .notRunnable ∨ (u.envs e).envStatus = .free ∨
      (u.envs e).envIpcRecving = false := by
  have hset : ∀ {x : EnvIdx} {v : Env}, u.envs = Function.update s.envs x v →
      (e = x → v.envStatus = .notRunnable ∨ v.envStatus = .free ∨ v.envIpcRecving = false) →
      (u.envs e).envStatus = .notRunnable ∨ (u.envs e).envStatus = .free ∨
        (u.envs e).envIpcRecving = false := by
    intro x v hu hv
    rw [hu]
    rcases eq_or_ne e x with rfl | hx
    · rw [Function.update_self]
      exact hv rfl
    · rw [Function.update_of_ne hx]
      exact Or.inl he
  cases h with
  | nothing hu =>
    rw [hu.envs]
    exact Or.inl he
  | marked _ hr _ hu =>
    refine hset hu.envs fun hx => ?_
    rw [← hx, he] at hr
    cases hr
  | freed _ _ _ hu => exact hset hu.envs fun _ => Or.inr (Or.inl rfl)
  | @forked x p _ _ hu =>
    rw [hu.envs]
    rcases eq_or_ne e x with rfl | hx
    · exact Or.inl (by simp [Jos.forked, KState.setEnv])
    · exact Or.inl (by simpa [Jos.forked, KState.setEnv, hx] using he)
  | @status x st h8 hl hst hu =>
    refine hset hu.envs fun hx => ?_
    rcases statusOfWord_ne_free hst with rfl | rfl
    · exact absurd ⟨⟨h8, hx ▸ hl⟩, hst⟩ hno
    · exact Or.inl rfl
  | upcall _ _ hu => exact hset hu.envs fun hx => Or.inl (hx ▸ he)
  | sent _ _ _ hu => exact hset hu.envs fun _ => Or.inr (Or.inr rfl)

/-- A new environment waits for nothing. -/
theorem CallDone.refilled (h : CallDone s c cur call u) (hcur : (s.envs cur).envStatus ≠ .free)
    (he : (s.envs e).envStatus = .free) :
    (u.envs e).envStatus = .free ∨ (u.envs e).envIpcRecving = false := by
  have hset : ∀ {x : EnvIdx} {v : Env}, u.envs = Function.update s.envs x v →
      (e = x → v.envStatus = .free) →
      (u.envs e).envStatus = .free ∨ (u.envs e).envIpcRecving = false := by
    intro x v hu hv
    rw [hu]
    rcases eq_or_ne e x with rfl | hx
    · rw [Function.update_self]
      exact Or.inl (hv rfl)
    · rw [Function.update_of_ne hx]
      exact Or.inl he
  have hlook : ∀ {x : EnvIdx} {id : Word} {chk : Bool}, lookupEnv s cur id chk = some x → e ≠ x :=
    fun hl hx => lookupEnv_live hcur hl (hx ▸ he)
  cases h with
  | nothing hu =>
    rw [hu.envs]
    exact Or.inl he
  | marked hd _ _ hu => exact hset hu.envs fun hx => absurd hx (hlook hd.2)
  | freed _ _ _ hu => exact hset hu.envs fun _ => rfl
  | @forked x p _ _ hu =>
    rw [hu.envs]
    rcases eq_or_ne e x with rfl | hx
    · exact Or.inr (by simp [Jos.forked, KState.setEnv, newEnv])
    · exact Or.inl (by simpa [Jos.forked, KState.setEnv, hx] using he)
  | status _ hl _ hu => exact hset hu.envs fun hx => absurd hx (hlook hl)
  | upcall _ hl hu => exact hset hu.envs fun hx => absurd hx (hlook hl)
  | sent _ hl _ hu => exact hset hu.envs fun hx => absurd hx (hlook hl)

theorem Exits.recving (h : Exits c m t) : (t.envs e).envIpcRecving = (m.envs e).envIpcRecving :=
  congrArg Mail.envIpcRecving (h.record e).1

/-- A wait does not begin in a slot that was free. -/
theorem MailInv.refilled (h : MailInv s) (hst : Step s l t) (he : (s.envs e).envStatus = .free) :
    ¬ Blocked t e := by
  obtain ⟨c, ev⟩ := l
  rintro ⟨hlive, hrec⟩
  rcases step_exits hst with ⟨va, b, via, rfl, ho⟩ | ⟨m, hw, hx⟩
  · rw [ho.envs] at hlive
    exact hlive he
  have hce : s.curenv c ≠ some e := by
    intro hc
    by_cases hm : (s.cpus c).mode = .user
    · exact (h.exclusive.status c e trivial hm hc).1 he
    · rw [h.exclusive.idle c trivial hm] at hc
      cases hc
  have hkeep : m.curenv c ≠ some e → (m.envs e).envStatus = .free → False := fun hmc hfree =>
    hlive ((hx.still hmc (by rw [hfree]; simp)).trans hfree)
  rcases hw.other hce with ⟨hmc, henv⟩ | ⟨inp, tf, cur, u, w, rfl, hu, hno, hd, rfl⟩
  · exact hkeep hmc (henv ▸ he)
  · have hcur := (h.exclusive.status c cur trivial hu.mode hu.current).1
    rcases hd.refilled (by rw [(saved_ids s c cur tf cur).1]; exact hcur)
      ((saved_ids s c cur tf e).1.trans he) with hfree | hr
    · exact hkeep (by rwa [hd.answered_curenv]) ((answered_status u cur e w).trans hfree)
    · rw [hx.recving, answered_recving, hr] at hrec
      cases hrec

/-- A receiver is stopped as soon as it waits. -/
theorem MailInv.begins (h : MailInv s) (hst : Step s l t) (hr : Receives e s l t) :
    ¬ Blocked s e ∧ (t.envs e).envStatus = .notRunnable ∧ (t.envs e).envIpcRecving = true ∧
      (t.envs e).envIpcPerm = 0 := by
  obtain ⟨c, ev⟩ := l
  obtain ⟨call, ⟨inp, tf, rfl, hu, hno, rfl⟩, h12, hva⟩ := hr
  refine ⟨h.not_blocked (k := c) ⟨hu.mode, hu.current⟩, ?_⟩
  rcases step_recv hu hno h12 hst with ⟨-, hy⟩ | ⟨hbad, -⟩
  · have hself : (receiving (saved c e tf s) e (Call.ofTf tf).a1).envs e = { s.envs e with
        envTf := tf, envIpcRecving := true, envIpcDstva := (Call.ofTf tf).a1, envIpcValue := 0,
        envIpcFrom := 0, envIpcPerm := 0, envStatus := .notRunnable } := by
      simp only [receiving, KState.setEnv, Function.update_self]
      rw [saved_envs, if_pos rfl]
    have hmail := (hy.exits.record e).1
    rw [hself] at hmail
    exact ⟨hy.stopped (by rw [hself]), congrArg Mail.envIpcRecving hmail,
      congrArg Mail.envIpcPerm hmail⟩
  · exact absurd hbad hva

/-- What has stopped is executed nowhere, unless it was on a CPU that did not enter the kernel. -/
theorem asleep_of_stopped (hst : Step s l t) (hstop : (t.envs e).envStatus = .notRunnable)
    (hk : ∀ k, Executes s k e → k = l.1 ∧ ∃ inp tf, l.2 = .trap inp tf) : Asleep e t := by
  obtain ⟨c, ev⟩ := l
  intro k hm hc
  by_cases hkc : k = c
  · subst hkc
    rcases step_exits hst with ⟨va, b, via, rfl, ho⟩ | ⟨m, -, hx⟩
    · obtain ⟨-, inp, tf, hev⟩ := hk k ⟨by rwa [ho.cpus] at hm, by rwa [ho.curenv] at hc⟩
      cases hev
    · have hrun := hx.executes ⟨hm, hc⟩
      rw [hstop] at hrun
      cases hrun
  · have hcpu := step_cpus_of_ne hst hkc
    exact hkc (hk k ⟨by rwa [hcpu] at hm, by rwa [KState.curenv, hcpu] at hc⟩).1

/-- What waits stays stopped as long as it waits. -/
theorem MailInv.stopped (h : MailInv s) (hok : LeavesBlocked s l) (hst : Step s l t)
    (hbt : Blocked t e) (hb : Blocked s e) : (t.envs e).envStatus = .notRunnable := by
  obtain ⟨c, ev⟩ := l
  obtain ⟨hstop, hz, -⟩ := h.asleep e hb
  rcases step_exits hst with ⟨va, b, via, rfl, ho⟩ | ⟨m, hw, hx⟩
  · rwa [ho.envs]
  have hce : s.curenv c ≠ some e := by
    intro hc
    by_cases hm : (s.cpus c).mode = .user
    · exact hz c hm hc
    · rw [h.exclusive.idle c trivial hm] at hc
      cases hc
  have hkeep : m.curenv c ≠ some e → (m.envs e).envStatus ≠ .runnable →
      (t.envs e).envStatus = (m.envs e).envStatus := fun hmc hr => hx.still hmc hr
  rcases hw.other hce with ⟨hmc, henv⟩ | ⟨inp, tf, cur, u, w, rfl, hu, hno, hd, rfl⟩
  · rw [hkeep hmc (by rw [henv, hstop]; simp), henv, hstop]
  · have hmc : (answered u cur w).curenv c ≠ some e := by rwa [hd.answered_curenv]
    have hids := saved_ids s c cur tf e
    rcases hd.stopped (hids.1.trans hstop) (fun hr => by
      obtain ⟨⟨h8, hl⟩, hw⟩ := hr
      rw [saved_lookup] at hl
      exact hok.2 cur _ e ⟨inp, tf, rfl, hu, hno, rfl⟩ ⟨⟨h8, hl⟩, hw, hb⟩) with hs | hf | hr
    · rw [hkeep hmc (by rw [answered_status, hs]; simp), answered_status, hs]
    · have hft := hkeep hmc (by rw [answered_status, hf]; simp)
      rw [answered_status, hf] at hft
      exact absurd hft hbt.1
    · have hrt : (t.envs e).envIpcRecving = false := by rw [hx.recving, answered_recving, hr]
      exact absurd (hbt.2.symm.trans hrt) (by simp)

/-- The invariant is kept. -/
theorem MailInv.step (h : MailInv s) (hok : LeavesBlocked s l) (hst : Step s l t) : MailInv t := by
  have hx := h.exclusive.step hok.1.1 hst
  refine ⟨hx, step_inv h.inv (h.exclusive.safe hok.1) hst, fun e hb => ?_⟩
  have hlive : (s.envs e).envStatus ≠ .free := fun hfree => h.refilled hst hfree hb
  rcases h.record hok hst hlive with hfrees | hrec | ⟨cur, call, ht, h0⟩ | ⟨hmail, -⟩
  · exact absurd hfrees.2 hb.1
  · obtain ⟨-, hstop, -, hperm⟩ := h.begins hst hrec
    obtain ⟨call, ⟨inp, tf, hev, hu, -⟩, -⟩ := hrec
    refine ⟨hstop, asleep_of_stopped hst hstop fun k hk => ⟨?_, inp, tf, hev⟩, hperm⟩
    exact h.exclusive.sole k l.1 e trivial trivial hk.1 hu.mode hk.2 hu.current
  · rcases h.tries hok hst ht with ⟨-, hd⟩ | ⟨h1, -⟩
    · have hno : (t.envs e).envIpcRecving = false := congrArg Mail.envIpcRecving hd.mail
      exact absurd (hb.2.symm.trans hno) (by simp)
    · exact absurd h0 h1
  · have hrs : (s.envs e).envIpcRecving = true :=
      (congrArg Mail.envIpcRecving hmail).symm.trans hb.2
    obtain ⟨hstop, hz, hperm⟩ := h.asleep e ⟨hlive, hrs⟩
    have hstop' := h.stopped hok hst hb ⟨hlive, hrs⟩
    exact ⟨hstop', asleep_of_stopped hst hstop' fun k hk => absurd hk.2 (hz k hk.1),
      (congrArg Mail.envIpcPerm hmail).trans hperm⟩

/-! ### Whole runs -/

/-- What holds along a run whose steps are none of the counted ones. -/
theorem MailInv.run {P : KState → CpuIdx × Event → KState → Prop} {I : KState → Prop}
    {ls : List (CpuIdx × Event)} (h : MailInv s) (hs : I s)
    (hI : ∀ s l t, MailInv s → LeavesBlocked s l → Step s l t → ¬ P s l t → I s → I t)
    (hr : Counted (restrict LeavesBlocked Step) P s ls 0 u) : I u :=
  (hr.none.invariant (I := fun s => MailInv s ∧ I s) (fun s l t hJ hst =>
    ⟨hJ.1.step hst.1.1 hst.1.2, hI s l t hJ.1 hst.1.1 hst.1.2 hst.2 hJ.2⟩) ⟨h, hs⟩).2

theorem Receives.traps (h : Receives e s l t) : Traps e s l := by
  obtain ⟨call, ⟨inp, tf, hev, hu, -⟩, -⟩ := h
  exact ⟨l.1, ⟨hu.mode, hu.current⟩, rfl, inp, tf, hev⟩

theorem MailInv.delivered (h : MailInv s) (hok : LeavesBlocked s l) (hst : Step s l t)
    (hs : Sends e s l t) : ∃ cur call, Delivered s cur call e t := by
  obtain ⟨cur, call, ht, h0⟩ := hs
  rcases h.tries hok hst ht with ⟨-, hd⟩ | ⟨h1, -⟩
  · exact ⟨cur, call, hd⟩
  · exact absurd h0 h1

theorem MailInv.waits {ls : List (CpuIdx × Event)} (h : MailInv s) (hb : Blocked s e)
    (hr : Counted (restrict LeavesBlocked Step) (fun s l t => Sends e s l t ∨ Frees e s l t)
      s ls 0 u) : Blocked u e ∧ (u.envs e).mail = (s.envs e).mail ∧
      (u.envs e).envTf = (s.envs e).envTf := by
  refine h.run (I := fun v => Blocked v e ∧ (v.envs e).mail = (s.envs e).mail ∧
    (v.envs e).envTf = (s.envs e).envTf) ⟨hb, rfl, rfl⟩ (fun v l t hv hok hst hno hI => ?_) hr
  obtain ⟨hbv, hm, hf⟩ := hI
  have hz := (hv.asleep e hbv).2.1
  rcases hv.record hok hst hbv.1 with hx | hx | hx | ⟨hmail, hframe⟩
  · exact absurd (Or.inr hx) hno
  · exact absurd hbv (hv.begins hst hx).1
  · exact absurd (Or.inl hx) hno
  · have hlive : (t.envs e).envStatus ≠ .free := fun hx => hno (Or.inr ⟨hbv.1, hx⟩)
    exact ⟨⟨hlive, (congrArg Mail.envIpcRecving hmail).trans hbv.2⟩, hmail.trans hm,
      (hframe fun ⟨k, hk, _⟩ => hz k hk.1 hk.2).trans hf⟩

/-- What neither waits nor is freed in a step that is no receive: its messages stay. -/
theorem MailInv.still (h : MailInv s) (hok : LeavesBlocked s l) (hst : Step s l t)
    (hlive : (s.envs e).envStatus ≠ .free) (hb : ¬ Blocked s e) (hf : ¬ Frees e s l t)
    (hr : ¬ Receives e s l t) : (t.envs e).envStatus ≠ .free ∧ ¬ Blocked t e ∧
      (t.envs e).mail = (s.envs e).mail ∧ (¬ Traps e s l → (t.envs e).envTf = (s.envs e).envTf) := by
  rcases h.record hok hst hlive with hx | hx | hx | ⟨hmail, hframe⟩
  · exact absurd hx hf
  · exact absurd hx hr
  · obtain ⟨cur, call, hd⟩ := h.delivered hok hst hx
    exact absurd hd.waiting hb
  · exact ⟨fun hx => hf ⟨hlive, hx⟩, fun hx => hb ⟨hlive,
      (congrArg Mail.envIpcRecving hmail).symm.trans hx.2⟩, hmail, hframe⟩

theorem MailInv.resumes {ls : List (CpuIdx × Event)} (h : MailInv s)
    (hlive : (s.envs e).envStatus ≠ .free) (hb : ¬ Blocked s e)
    (hr : Counted (restrict LeavesBlocked Step) (fun s l t => Traps e s l ∨ Frees e s l t)
      s ls 0 u) : (u.envs e).envTf = (s.envs e).envTf := by
  refine (h.run (I := fun v => (v.envs e).envStatus ≠ .free ∧ ¬ Blocked v e ∧
    (v.envs e).envTf = (s.envs e).envTf) ⟨hlive, hb, rfl⟩ (fun v l t hv hok hst hno hI => ?_) hr).2.2
  obtain ⟨hlv, hbv, hf⟩ := hI
  obtain ⟨h1, h2, -, h4⟩ := hv.still hok hst hlv hbv (fun hx => hno (Or.inr hx))
    fun hx => hno (Or.inl hx.traps)
  exact ⟨h1, h2, (h4 fun hx => hno (Or.inl hx)).trans hf⟩

theorem MailInv.reads {ls : List (CpuIdx × Event)} (h : MailInv s)
    (hlive : (s.envs e).envStatus ≠ .free) (hb : ¬ Blocked s e)
    (hr : Counted (restrict LeavesBlocked Step) (fun s l t => Receives e s l t ∨ Frees e s l t)
      s ls 0 u) : (u.envs e).mail = (s.envs e).mail := by
  refine (h.run (I := fun v => (v.envs e).envStatus ≠ .free ∧ ¬ Blocked v e ∧
    (v.envs e).mail = (s.envs e).mail) ⟨hlive, hb, rfl⟩ (fun v l t hv hok hst hno hI => ?_) hr).2.2
  obtain ⟨hlv, hbv, hm⟩ := hI
  obtain ⟨h1, h2, h3, -⟩ := hv.still hok hst hlv hbv (fun hx => hno (Or.inr hx))
    fun hx => hno (Or.inl hx)
  exact ⟨h1, h2, h3.trans hm⟩

theorem MailInv.keepsPage {va : Word} {ls : List (CpuIdx × Event)} (h : MailInv s)
    (hlive : (s.envs e).envStatus ≠ .free)
    (hr : Counted (restrict LeavesBlocked Step) (fun s l t => Remaps e va s l ∨ Frees e s l t)
      s ls 0 u) : pteOf u e va = pteOf s e va := by
  refine (h.run (I := fun v => (v.envs e).envStatus ≠ .free ∧ pteOf v e va = pteOf s e va)
    ⟨hlive, rfl⟩ (fun v l t hv hok hst hno hI => ?_) hr).2
  obtain ⟨hlv, hp⟩ := hI
  refine ⟨fun hx => hno (Or.inr ⟨hlv, hx⟩), Eq.trans ?_ hp⟩
  by_contra hne
  obtain ⟨c, ev⟩ := l
  rcases step_entry hv.inv (.inl trivial) hst hne with
    ⟨inp, tf, cur, rfl, hm, hc, hnd, hsys, hed⟩ | ⟨-, -, hfree⟩
  · exact hno (Or.inl ⟨cur, _, ⟨inp, tf, rfl, ⟨hm, hc, hnd⟩, hsys, rfl⟩, hed⟩)
  · exact hno (Or.inr ⟨hlv, hfree⟩)

open Classical in
/-- The account of one step: a wait begins with a receive, and it ends with a send or the end of the
    environment. -/
theorem MailInv.account (h : MailInv s) (hok : LeavesBlocked s l) (hst : Step s l t) :
    (pending e s + if Receives e s l t then 1 else 0) =
      (pending e t + if Sends e s l t then 1 else 0) + if Lapses e s l t then 1 else 0 := by
  have hrecv : Receives e s l t → ¬ Blocked s e ∧ Blocked t e := fun hx => by
    obtain ⟨h1, h2, h3, -⟩ := h.begins hst hx
    exact ⟨h1, by rw [h2]; simp, h3⟩
  have hsend : Sends e s l t → Blocked s e ∧ ¬ Blocked t e ∧ ¬ Frees e s l t := fun hx => by
    obtain ⟨cur, call, hd⟩ := h.delivered hok hst hx
    have hno : (t.envs e).envIpcRecving = false := congrArg Mail.envIpcRecving hd.mail
    refine ⟨hd.waiting, fun hb => absurd (hb.2.symm.trans hno) (by simp), fun hf => ?_⟩
    have hw := hd.woken
    rw [Eligible, hf.2] at hw
    rcases hw with hw | hw <;> cases hw
  have hfree : Frees e s l t → ¬ Blocked t e := fun hx hb => hb.1 hx.2
  by_cases hlive : (s.envs e).envStatus = .free
  · have hs : ¬ Blocked s e := fun hb => hb.1 hlive
    have ht := h.refilled hst hlive
    simp only [pending, if_neg hs, if_neg ht, if_neg fun hx => ht (hrecv hx).2,
      if_neg fun hx => hs (hsend hx).1, if_neg fun hx : Lapses e s l t => hs hx.1]
  by_cases hf : Frees e s l t
  · have hr : ¬ Receives e s l t := fun hx => hfree hf (hrecv hx).2
    have hse : ¬ Sends e s l t := fun hx => (hsend hx).2.2 hf
    by_cases hs : Blocked s e
    · simp only [pending, if_pos hs, if_neg (hfree hf), if_neg hr, if_neg hse,
        if_pos (show Lapses e s l t from ⟨hs, hf⟩)]
    · simp only [pending, if_neg hs, if_neg (hfree hf), if_neg hr, if_neg hse,
        if_neg fun hx : Lapses e s l t => hs hx.1]
  rw [if_neg fun hx : Lapses e s l t => hf hx.2]
  by_cases hr : Receives e s l t
  · obtain ⟨hs, ht⟩ := hrecv hr
    simp only [pending, if_neg hs, if_pos ht, if_pos hr, if_neg fun hx => hs (hsend hx).1]
  by_cases hse : Sends e s l t
  · obtain ⟨hs, ht, -⟩ := hsend hse
    simp only [pending, if_pos hs, if_neg ht, if_pos hse, if_neg hr]
  obtain ⟨hmail, -⟩ := (((h.record hok hst hlive).resolve_left hf).resolve_left hr).resolve_left hse
  have hrec : (t.envs e).envIpcRecving = (s.envs e).envIpcRecving := congrArg Mail.envIpcRecving hmail
  have hiff : Blocked t e ↔ Blocked s e := by
    unfold Blocked
    rw [hrec]
    exact and_congr_left fun _ => ⟨fun _ => hlive, fun _ hx => hf ⟨hlive, hx⟩⟩
  simp only [pending, hiff, if_neg hr, if_neg hse]

open Classical in
theorem MailInv.exactlyOnce (h : MailInv s) : ExactlyOnce LeavesBlocked s where
  asleep e hb := ⟨(h.asleep e hb).1, (h.asleep e hb).2.1⟩
  begins e l t _ hst hr := by
    obtain ⟨h1, h2, h3, -⟩ := h.begins hst hr
    exact ⟨h1, by rw [h2]; simp, h3⟩
  waits e ls u hb hr := h.waits hb hr
  sent l cur call e t hok hst ht h0 := by
    rcases h.tries hok hst ht with ⟨-, hd⟩ | ⟨h1, -⟩
    · exact hd
    · exact absurd h0 h1
  refused l cur call e t hok hst ht h0 x := by
    rcases h.tries hok hst ht with ⟨h1, -⟩ | ⟨-, hq⟩
    · exact absurd h1 h0
    · exact (hq x).1
  resumes e ls u hlive hb hr := h.resumes hlive hb hr
  reads e ls u hlive hb hr := h.reads hlive hb hr
  keepsPage e va ls u hlive hr := h.keepsPage hlive hr
  tally e ls u p q r hp hq hr := by
    have hacc : ∀ s l t, MailInv s → restrict LeavesBlocked Step s l t →
        (pending e s + if Receives e s l t then 1 else 0) =
          (pending e t + if Sends e s l t then 1 else 0) + if Lapses e s l t then 1 else 0 :=
      fun _ _ _ hI hst => hI.account hst.1 hst.2
    have hstep : ∀ s l t, MailInv s → restrict LeavesBlocked Step s l t → MailInv t :=
      fun _ _ _ hI hst => hI.step hst.1 hst.2
    have hdet : ∀ s l t t', restrict LeavesBlocked Step s l t → restrict LeavesBlocked Step s l t' →
        t = t' := fun _ _ _ _ h1 h2 => restrict_step_unique h1 h2
    exact Counted.balance hdet hstep hacc h hp hq hr

theorem Plainly.leavesBlocked (h : Plainly s l) : LeavesBlocked s l := by
  refine ⟨h.1, ?_⟩
  rintro cur call e ⟨inp, tf, hl, hu, hno, rfl⟩ hx
  exact absurd ((h.2 inp tf cur e hl hu hno hx.1).2.symm.trans hx.2.2.2) (by simp)

theorem Booted.mailInv {p : BootParams} (h : Booted p s) : MailInv s := by
  have hinv := h.inv
  refine ⟨h.exclusive, hinv, fun e hb => absurd hb.2 ?_⟩
  rcases eq_or_ne e 0 with rfl | hne
  · obtain ⟨v, hv, h0⟩ := h.first
    rw [h0]
    simp [hv.recving]
  have henv := h.envs e hne
  split at henv
  · simp [henv.recving]
  · rw [henv]
    simp [emptyEnv]

end

/-- As long as a run stays clear of the kernel's unguarded cases, and no call makes an environment
    runnable that waits for a message: in every state reached and from there on, who waits is stopped
    and executed by no CPU until a send to it succeeds, each receive ends with one such send at most,
    and what that delivered stays until the receiver waits again. -/
theorem exactly_once {p : BootParams} {ls : List (CpuIdx × Event)} {s : KState}
    (h : BootRun LeavesBlocked p ls s) : ExactlyOnce LeavesBlocked s := by
  obtain ⟨s0, hboot, hr⟩ := h
  exact (hr.invariant (I := MailInv) (fun _ _ _ hI hst => hI.step hst.1 hst.2)
    (boot_booted hboot).mailInv).exactlyOnce

/-- The child waits for a message on a CPU that is halted meanwhile. -/
theorem exactly_once_demo : ∃ ls s, BootRun LeavesBlocked oneProgram ls s ∧ Blocked s 1 ∧
    pending 1 s = 1 ∧ ExactlyOnce LeavesBlocked s := by
  obtain ⟨ls, s, hplain, hw, -⟩ := child_waits utop (by decide)
  have hr := hplain.mono LeavesBlocked fun _ _ hx => hx.leavesBlocked
  have hb : Blocked s 1 := ⟨by rw [hw.status]; simp, hw.recving⟩
  exact ⟨ls, s, hr, hb, if_pos hb, exactly_once hr⟩

/-- The parent calls `sys_env_set_status(child, ENV_RUNNABLE)` while the child waits for a message:
    the child is runnable with `env_ipc_recving` set. -/
theorem child_roused : ∃ ls s, BootRun (fun _ _ => True) oneProgram ls s ∧ Blocked s 1 ∧
    (s.envs 1).envStatus = .runnable ∧ ¬ ExactlyOnce (fun _ _ => True) s := by
  obtain ⟨ls, s, hplain, hw, -⟩ := child_waits utop (by decide)
  obtain ⟨s0, hboot, hrun⟩ := hplain.mono (fun _ _ => True) fun _ _ _ => trivial
  obtain ⟨t, hst, ht, henv, -, -⟩ := hw.toPair.setsStatus .plain (by simp) (w := 2) rfl
  have hrun1 : (t.envs 1).envStatus = .runnable := by rw [henv]
  have hb : Blocked t 1 := ⟨by rw [hrun1]; simp, by rw [henv]; exact hw.recving⟩
  refine ⟨_, t, ⟨s0, hboot, hrun.append (.single ⟨trivial, hst⟩)⟩, hb, hrun1, fun hx => ?_⟩
  have hstop := (hx.asleep 1 hb).1
  rw [hrun1] at hstop
  cases hstop

end Jos
