import Jos.TwoCpus

/-!
  What user code can reach of physical memory, and the exactness of the reference counts.

  Both follow from the invariant of the page allocator and the form of page-table entries, in every
  run that stays clear of the kernel's unguarded cases. One of these is the permission that
  `sys_ipc_try_send` hands to `page_insert`: its upper bits end up in the frame number. -/

namespace Jos

open Lib RefCount

/-- A page of user data: memory that `page_alloc` manages and has handed out, none of what
    `page_init` leaves out (the IO hole, the kernel image, what `boot_alloc` gave away), and in
    use neither as a page directory nor as a page table. -/
structure DataPage (s : KState) (f : Nat) : Prop where
  managed : Managed s f
  behind : f < 160 ∨ paddrFrame s.nextfree ≤ f
  handedOut : ∃ L, FreeChain s L ∧ f ∉ L
  noTable : f ≠ s.kernPgdir ∧ ∀ r, r.IsTable → target s r ≠ some f

/-- Whatever a live environment has mapped below `UTOP` is user data. -/
def Isolated (s : KState) : Prop :=
  ∀ e va f, (s.envs e).envStatus ≠ .free → va < utop → mappedAt s e va = some f → DataPage s f

/-- A page that the step sends by IPC: the receiver has the sender's frame, with no permission
    outside `PTE_SYSCALL`. -/
def SendsFaithfully (s : KState) (c : CpuIdx) (tf : Trapframe) (t : KState) : Prop :=
  ∀ cur env, InUser s c cur → tf.tfTrapno = tSyscall → (Call.ofTf tf).no = 11 →
    Awaits s cur (Call.ofTf tf).a1 env → (Call.ofTf tf).a3 < utop →
    (s.envs env).envIpcDstva < utop → (t.envs env).envIpcRecving = false →
    ∃ f, mappedAt s cur (Call.ofTf tf).a3 = some f ∧
      mappedAt t env (s.envs env).envIpcDstva = some f ∧
      pteOf t env (s.envs env).envIpcDstva &&& 0xFFF &&& ~~~pteSyscall = 0

/-- The counter of every page that `page_alloc` manages is the number of references to it: from
    entries below `UTOP` of live environments, from directory entries that use it as a page table,
    and from live environments that use it as their directory. The page is on the free list, once,
    exactly if there are none. -/
structure CountsExact (s : KState) : Prop where
  counts : ∃ L, FreeChain s L ∧ ∀ f, Managed s f →
    (s.pages f).ppRef.toNat = refs (target s) f ∧ (f ∈ L ↔ refs (target s) f = 0)
  live : ∀ e, (s.envs e).envStatus = .free → (s.envs e).envPgdir = none

section

variable {c : CpuIdx} {cur env e : EnvIdx} {s t u : KState} {tf : Trapframe} {inp : Input} {w : Word}
  {L : List Nat} {d d' : Nat}

theorem Core.isolated {H : Finset Nat} (h : Core H s) : Isolated s := by
  obtain ⟨L, hL⟩ := h.page
  intro e va f _ _ hf
  have hM := hL.counted.target _ f hf
  refine ⟨hM, ?_, ⟨L, ⟨hL.chain, hL.counted.nodup⟩, hL.counted.not_free_of_target hf⟩,
    (hL.notTable_of_pte hf).1, (hL.notTable_of_pte hf).2⟩
  have hres := hM.2
  simp only [pageReserved, Bool.or_eq_false_iff, Bool.and_eq_false_iff, decide_eq_false_iff_not] at hres
  omega

theorem Core.countsExact (h : Core ∅ s) : CountsExact s := by
  obtain ⟨L, hL⟩ := h.page
  obtain ⟨Le, hLe⟩ := h.envs
  refine ⟨⟨L, ⟨hL.chain, hL.counted.nodup⟩, fun f hf => ⟨hL.counted.exact f hf, ?_⟩⟩,
    fun e he => (hLe.dir e).mpr he⟩
  have := hL.counted.free_iff f hf
  simpa using this

theorem trapReturn_returns (h : trapReturn c s = .error .leave t) : Returns c s t := by
  have hwp : wp (trapReturn c) (fun _ _ => False) (Leaves (Returns c s)) s :=
    trapReturn_wp fun _ ht => ht
  exact hwp.error h rfl

/-- A step by a system call, taken apart: it returns, or the CPU leaves the kernel in it. -/
theorem step_syscall (hu : InUser s c cur) (hno : tf.tfTrapno = tSyscall)
    (hst : Step s (c, .trap inp tf) t) :
    (∃ w u, syscall c inp tf.tfRegs.regEax tf.tfRegs.regEdx tf.tfRegs.regEcx tf.tfRegs.regEbx
      tf.tfRegs.regEdi tf.tfRegs.regEsi (saved c cur tf s) = .ok w u ∧
      trapReturn c (answered u cur w) = .error .leave t) ∨
    syscall c inp tf.tfRegs.regEax tf.tfRegs.regEdx tf.tfRegs.regEcx tf.tfRegs.regEbx
      tf.tfRegs.regEdi tf.tfRegs.regEsi (saved c cur tf s) = .error .leave t := by
  have hc' : (saved c cur tf s).curenv c = some cur := (saved_curenv _ c).trans hu.current
  have hstep := hst
  unfold Step step at hst
  simp only at hst
  split at hst
  · rename_i ha
    have hcs : tf.tfCs = gdUt ||| 3 := by
      rcases ha with ha | ha
      · exact ha.2
      · exact absurd (hu.mode.symm.trans ha.1) (by simp)
    have htrap := enter_eq_some.mp hst
    have hdisp : trapDispatch c inp tf (saved c cur tf s) = (syscall c inp tf.tfRegs.regEax
        tf.tfRegs.regEdx tf.tfRegs.regEcx tf.tfRegs.regEbx tf.tfRegs.regEdi tf.tfRegs.regEsi >>=
        fun w => modify fun s => answered s cur w) (saved c cur tf s) := by
      unfold trapDispatch
      rw [if_neg (by rw [hno]; decide), if_neg (by rw [hno]; decide), if_pos hno]
      simp only [run_bind, getCurenv_run hc']
      rfl
    have hk : CallersOk s c inp tf := callersOk_of_step ha hu.mode hu.current hstep
    rw [trap_user hcs hu.current hk hu.live, run_bind, hdisp, run_bind] at htrap
    cases hsys : syscall c inp tf.tfRegs.regEax tf.tfRegs.regEdx tf.tfRegs.regEcx tf.tfRegs.regEbx
        tf.tfRegs.regEdi tf.tfRegs.regEsi (saved c cur tf s) with
    | ok w u =>
      rw [hsys] at htrap
      exact Or.inl ⟨w, u, rfl, htrap⟩
    | error x u =>
      rw [hsys] at htrap
      cases htrap
      exact Or.inr rfl
  · cases hst

theorem answered_recving (u : KState) (cur x : EnvIdx) (w : Word) :
    ((answered u cur w).envs x).envIpcRecving = (u.envs x).envIpcRecving := by
  rcases eq_or_ne x cur with rfl | hne
  · simp [answered, KState.setEnv]
  · simp [answered, KState.setEnv, hne]

/-- What a send that succeeds leaves before the CPU returns to its caller. -/
structure SentTo (s u : KState) (c : CpuIdx) (cur env : EnvIdx) (value srcva perm : Word) : Prop where
  current : u.curenv c = s.curenv c
  others : ∀ x, x ≠ env → u.envs x = s.envs x
  record : u.envs env = { s.envs env with
    envIpcPerm := if srcva < utop ∧ (s.envs env).envIpcDstva < utop then perm
      else (s.envs env).envIpcPerm
    envIpcRecving := false
    envIpcFrom := (s.envs cur).envId
    envIpcValue := value
    envStatus := .runnable
    envTf := (s.envs env).envTf.withEax 0 }
  page : srcva < utop → (s.envs env).envIpcDstva < utop → ∃ f, mappedAt s cur srcva = some f ∧
    pteOf u env (s.envs env).envIpcDstva = page2pa f ||| perm ||| pteP

theorem sentTo_plain {value srcva perm : Word}
    (hno : ¬ (srcva < utop ∧ (s.envs env).envIpcDstva < utop)) :
    SentTo s (received s cur env value) c cur env value srcva perm := by
  refine ⟨rfl, fun x hx => ?_, ?_, fun h1 h2 => absurd ⟨h1, h2⟩ hno⟩
  · simp [received, KState.setEnv, hx]
  · rw [received_env, if_neg hno]

theorem sentTo_page {v : KState} {f : Nat} {value srcva perm : Word} (hve : v.envs = s.envs)
    (hvc : v.curenv c = s.curenv c) (hyes : srcva < utop ∧ (s.envs env).envIpcDstva < utop)
    (hf : mappedAt s cur srcva = some f)
    (hent : pteOf v env (s.envs env).envIpcDstva = page2pa f ||| perm ||| pteP) :
    SentTo s (received (v.setEnv env { v.envs env with envIpcPerm := perm }) cur env value) c cur env
      value srcva perm := by
  have hset : pteAt (v.setEnv env { v.envs env with envIpcPerm := perm }) = pteAt v :=
    pteAt_setEnv rfl
  have hid : ((v.setEnv env { v.envs env with envIpcPerm := perm }).envs cur).envId
      = (s.envs cur).envId := by
    rcases eq_or_ne cur env with rfl | hne
    · simp [KState.setEnv, hve]
    · simp [KState.setEnv, hne, hve]
  refine ⟨hvc, fun x hx => ?_, ?_, fun _ _ => ⟨f, hf, ?_⟩⟩
  · simp [received, KState.setEnv, hx, hve]
  · rw [received_env, hid, if_pos hyes]
    simp [KState.setEnv, hve]
  · rw [← hent, received_pteOf]
    unfold pteOf
    rw [hset]

/-- `sys_ipc_try_send` to a target that waits: it fails and changes nothing, it faults, or it goes
    through. -/
theorem sysIpcTrySend_cases (value srcva perm : Word) {envid : Word} (h : PageInv s L ∅)
    (hc : s.curenv c = some cur) (hd : (s.envs cur).envPgdir = some d)
    (hd' : (s.envs env).envPgdir = some d') (haw : Awaits s cur envid env) (inp : Input) :
    (∃ err, sysIpcTrySend c inp envid value srcva perm s = .ok (.error err) s) ∨
    sysIpcTrySend c inp envid value srcva perm s = .error .panic s ∨
    ∃ u, sysIpcTrySend c inp envid value srcva perm s = .ok (.ok 0) u ∧
      SentTo s u c cur env value srcva perm := by
  by_cases hsrc : srcva < utop
  · have hpage := sysIpcTrySend_page value perm hc haw hsrc inp
    rcases ipcSendPage_run perm h hc hd hd' hsrc inp with
      ⟨-, hr⟩ | ⟨-, -, hr⟩ | ⟨-, -, -, hr⟩ | ⟨-, -, f, hf, hr⟩
    · rw [hr] at hpage
      exact Or.inl ⟨_, hpage⟩
    · rw [hr] at hpage
      cases hp : inp.strayPte with
      | none =>
        rw [hp] at hpage
        exact Or.inr (Or.inl hpage)
      | some x =>
        rw [hp] at hpage
        exact Or.inl ⟨_, hpage⟩
    · rw [hr] at hpage
      exact Or.inl ⟨_, hpage⟩
    · rcases hr with ⟨hge, hr⟩ | ⟨-, -, hr⟩ | ⟨hlt, v, hve, hvc, hent, hr⟩ <;> rw [hr] at hpage
      · refine Or.inr (Or.inr ⟨_, ?_, sentTo_plain fun hx => BitVec.not_lt.mpr hge hx.2⟩)
        rw [hpage]
        simp only [run_bind, ipcDeliver_run hc, run_pure]
      · exact Or.inl ⟨_, hpage⟩
      · refine Or.inr (Or.inr ⟨_, ?_, sentTo_page hve hvc ⟨hsrc, hlt⟩ hf hent⟩)
        have hct : (v.setEnv env { v.envs env with envIpcPerm := perm }).curenv c = some cur :=
          hvc.trans hc
        rw [hpage]
        simp only [run_bind, ipcDeliver_run hct, run_pure]
  · exact Or.inr (Or.inr ⟨_, sysIpcTrySend_plain hc haw hsrc inp, sentTo_plain fun hx => hsrc hx.1⟩)

/-- A step in which `sys_ipc_try_send` is called with a target that waits: it failed, or it went
    through. -/
theorem send_step (hL : PageInv s L ∅) (hd : (s.envs cur).envPgdir = some d)
    (hd' : (s.envs env).envPgdir = some d') (hu : InUser s c cur) (hno : tf.tfTrapno = tSyscall)
    (h11 : (Call.ofTf tf).no = 11) (haw : Awaits s cur (Call.ofTf tf).a1 env)
    (hst : Step s (c, .trap inp tf) t) :
    (∃ err : Err, Returns c (answered (saved c cur tf s) cur err.code) t) ∨
    ∃ u, SentTo (saved c cur tf s) u c cur env (Call.ofTf tf).a2 (Call.ofTf tf).a3
      (Call.ofTf tf).a4 ∧ Returns c (answered u cur 0) t := by
  set m := saved c cur tf s with hm
  have hma : Alike s m := saved_alike tf
  have hcm : m.curenv c = some cur := (saved_curenv tf c).trans hu.current
  have hawm : Awaits m cur (Call.ofTf tf).a1 env :=
    ⟨(saved_lookup _ _ _).trans haw.1, (saved_ids s c cur tf env).2.2.2.1.trans haw.2⟩
  have hsys : syscall c inp tf.tfRegs.regEax tf.tfRegs.regEdx tf.tfRegs.regEcx tf.tfRegs.regEbx
      tf.tfRegs.regEdi tf.tfRegs.regEsi m = (sysIpcTrySend c inp (Call.ofTf tf).a1
        (Call.ofTf tf).a2 (Call.ofTf tf).a3 (Call.ofTf tf).a4 >>= fun r => pure (retCode r)) m := by
    have hx : tf.tfRegs.regEax.toNat = 11 := h11
    unfold syscall
    rw [hx]
    rfl
  rw [run_bind] at hsys
  have hstep := step_syscall hu hno hst
  rcases sysIpcTrySend_cases (Call.ofTf tf).a2 (Call.ofTf tf).a3 (Call.ofTf tf).a4
    (pageInv_congr hL hma.mem hma.dir hma.pages hma.freeList hma.limits) hcm
    ((hma.dir cur).trans hd) ((hma.dir env).trans hd') hawm inp with ⟨err, hr⟩ | hr | ⟨u, hr, hsent⟩
  all_goals
    rw [hr] at hsys
    rw [hsys] at hstep
    rcases hstep with ⟨w, v, hv, hret⟩ | hleft
  · cases hv
    exact Or.inl ⟨err, trapReturn_returns hret⟩
  · cases hleft
  · cases hv
  · cases hleft
  · cases hv
    exact Or.inr ⟨u, hsent, trapReturn_returns hret⟩
  · cases hleft

/-- A send of a page that has gone through. -/
theorem sent_page_step (hL : PageInv s L ∅) (hd : (s.envs cur).envPgdir = some d)
    (hd' : (s.envs env).envPgdir = some d') (hu : InUser s c cur) (hno : tf.tfTrapno = tSyscall)
    (h11 : (Call.ofTf tf).no = 11) (haw : Awaits s cur (Call.ofTf tf).a1 env)
    (hsrc : (Call.ofTf tf).a3 < utop) (hdst : (s.envs env).envIpcDstva < utop)
    (hst : Step s (c, .trap inp tf) t) (hdone : (t.envs env).envIpcRecving = false) :
    ∃ f, mappedAt s cur (Call.ofTf tf).a3 = some f ∧
      pteOf t env (s.envs env).envIpcDstva = page2pa f ||| (Call.ofTf tf).a4 ||| pteP := by
  have hma : Alike s (saved c cur tf s) := saved_alike tf
  have hids := saved_ids s c cur tf env
  rcases send_step hL hd hd' hu hno h11 haw hst with ⟨err, hret⟩ | ⟨u, hsent, hret⟩
  · -- a call that changes nothing leaves the receiver waiting
    have hk := (hret.rescheduled env).kept.recving
    rw [answered_recving, hids.2.2.2.1, haw.2, hdone] at hk
    cases hk
  · obtain ⟨f, hf, hent⟩ := hsent.page hsrc (by rw [hids.2.2.2.2]; exact hdst)
    refine ⟨f, ?_, ?_⟩
    · rw [← hf, mappedAt, mappedAt, hma.target]
    · have hans : pteAt (answered u cur 0) = pteAt u := pteAt_setEnv rfl
      rw [← hent, hids.2.2.2.2, pteOf, pteOf, hret.pteAt, hans]

/-- A page with a permission outside `PTE_SYSCALL` is no longer sent. -/
theorem Inv.sendsFaithfully {T : Prop} (h : Inv T s) (hc : Careful T s (c, .trap inp tf))
    (hst : Step s (c, .trap inp tf) t) : SendsFaithfully s c tf t := by
  intro cur env hu hno h11 haw hsrc hdst hdone
  obtain ⟨L, hL⟩ := h.core.page
  obtain ⟨Le, hLe⟩ := h.core.envs
  obtain ⟨x, hx, hd⟩ := (h.cpus c).running hu.mode
  obtain rfl := Option.some.inj (hu.current.symm.trans hx)
  have hlive : (s.envs cur).envStatus ≠ .free := fun hf => by
    rw [(hLe.dir cur).mpr hf] at hd
    cases hd
  obtain ⟨d', hd'⟩ : ∃ d', (s.envs env).envPgdir = some d' :=
    Option.ne_none_iff_exists'.mp fun hn => lookupEnv_live hlive haw.1 ((hLe.dir env).mp hn)
  obtain ⟨f, hf, hent⟩ := sent_page_step hL hd hd' hu hno h11 haw hsrc hdst hst hdone
  have hids := saved_ids s c cur tf env
  have hperm : (Call.ofTf tf).a4 &&& ~~~pteSyscall = 0 :=
    (hc.2.2 inp tf cur rfl hu hno).perm env ⟨h11, (saved_lookup _ _ _).trans haw.1,
      hids.2.2.2.1.trans haw.2, hsrc, by rw [hids.2.2.2.2]; exact hdst⟩
  have hlt : f < 2 ^ 20 := by
    have := (hL.lt_window (hL.counted.target _ f hf)).2
    omega
  refine ⟨f, hf, ?_, ?_⟩
  · show entryFrame (pteOf t env (s.envs env).envIpcDstva) = some f
    rw [hent]
    exact entryFrame_insert hlt hperm
  · rw [hent]
    exact UserEntry.flags (Or.inr ⟨f, _, rfl, hperm⟩)

end

/-! ### A page that was not sent -/

section

variable {c : CpuIdx} {cur e : EnvIdx} {s t : KState} {L : List Nat} {d d' : Nat}

/-- `page_insert` at an empty entry, with a permission that changes the frame number: the page's
    counter goes up, but nothing refers to it. -/
theorem pageInsert_wild {pp : Nat} (c : CpuIdx) (va perm : Word) (h : PageInv s L ∅) (hn : L ≠ [])
    (hd : (s.envs e).envPgdir = some d) (hi : pdx va < utopPdx) (hM : Managed s pp) (hpp : pp ∉ L)
    (hempty : mappedAt s e va = none)
    (hw : entryFrame (page2pa pp ||| perm ||| pteP) ≠ some pp) :
    ∃ t, pageInsert c d pp va perm s = .ok (.ok ()) t ∧ PmOnly s t ∧
      pteOf t e va = page2pa pp ||| perm ||| pteP ∧ (t.pages pp).ppRef = (s.pages pp).ppRef + 1 ∧
      refs (target t) pp = refs (target s) pp := by
  rcases pgdirWalk_create h (o := some e) hd hi with ⟨-, rfl, -⟩ | ⟨T, m, hwalk, W⟩
  · exact absurd rfl hn
  obtain ⟨L', hm, hsub, -⟩ := W.inv
  set w := page2pa pp ||| perm ||| pteP with hwdef
  have hslot : target m (.pte e (pdx va) (ptx va)) = entryFrame (m.mem T (ptx va)) := by
    simp only [target, pteAt_of_tab W.tab]
  have hfree : target m (.pte e (pdx va) (ptx va)) = none := by
    have hx : target m (.pte e (pdx va) (ptx va)) = target s (.pte e (pdx va) (ptx va)) := by
      simp only [target, W.pte]
    exact hx.trans hempty
  have ho : PmOnly m (m.incref pp) := .incref m pp
  have htm : target (m.incref pp) = target m := target_of_mem ho rfl
  have hsep : Separate (m.incref pp) :=
    ⟨by rw [htm]; exact hm.sole, by rw [htm]; exact hm.separate.kern⟩
  have htab : tabFrame (m.incref pp) (some e) (pdx va) = some T := by
    rw [(tables_of_mem ho rfl).1]
    exact W.tab
  have hpages : m.pages pp = s.pages pp := W.pages pp hpp
  have hMm : Managed m pp := by
    rw [W.edit.only.managed]
    exact hM
  -- the walk adds no reference to the page
  have hrefs : refs (target m) pp = refs (target s) pp := by
    have h1 : (m.pages pp).ppRef.toNat = refs (target m) pp := hm.counted.exact pp hMm
    have h2 : (s.pages pp).ppRef.toNat = refs (target s) pp := h.counted.exact pp hM
    rw [← h1, ← h2, hpages]
  refine ⟨_, pageInsert_fresh c hwalk (hslot ▸ hfree),
    (W.edit.only.trans ho).trans (.poke _ _ _ _), ?_, ?_, ?_⟩
  · rw [pteOf, pteAt_poke_pte hsep htab, if_pos ⟨rfl, rfl, rfl⟩]
  · show ((m.incref pp).pages pp).ppRef = _
    simp [KState.incref, KState.setPage, hpages]
  · rw [target_poke_pte hsep htab, htm, refs_update_of_ne (by rw [hfree]; simp) hw, hrefs]

/-- An address that nothing uses at first. -/
def wildVa : Word := 0x400000

/-- A permission whose upper bits are a frame number. -/
def wildPerm : Word := 0xFFFFF007

/-- The frame of `sys_ipc_try_send(4097, 0, wildVa, wildPerm)`. -/
def wildFrame : Trapframe :=
  { callFrame 11 4097 0 wildVa with
    tfRegs := { (callFrame 11 4097 0 wildVa).tfRegs with regEdi := wildPerm } }

/-- The parent has a page at `wildVa`, where the child has none. -/
structure HasPage (s : KState) (f : Nat) : Prop where
  mapped : mappedAt s 0 wildVa = some f
  entry : pteOf s 0 wildVa = page2pa f ||| 7
  other : mappedAt s 1 wildVa = none
  room : ∃ L, PageInv s L ∅ ∧ L ≠ []

theorem HasPage.alike {f : Nat} (h : HasPage s f) (ha : Alike s t) : HasPage t f := by
  obtain ⟨L, hL, hne⟩ := h.room
  refine ⟨?_, ?_, ?_, L, pageInv_congr hL ha.mem ha.dir ha.pages ha.freeList ha.limits, hne⟩
  · rw [mappedAt, ha.target]
    exact h.mapped
  · rw [pteOf, ha.tables.2]
    exact h.entry
  · rw [mappedAt, ha.target]
    exact h.other

/-- The parent allocates a page for itself while the child waits. -/
theorem ChildWaits.allocs {va : Word} (h : ChildWaits s va) (hr : Roomy s) (inp : Input) :
    ∃ t f, restrict (Careful True) Step s (0, .trap inp (callFrame 4 0 wildVa 7)) t ∧
      ChildWaits t va ∧ HasPage t f := by
  set m := saved 0 0 (callFrame 4 0 wildVa 7) s with hm
  have hma : Alike s m := saved_alike _
  obtain ⟨⟨L, hL, hlen⟩, hbare⟩ := hr.alike hma
  have hc : m.curenv 0 = some 0 := (saved_curenv _ 0).trans h.user.current
  have hl : lookupEnv m 0 0 true = some 0 := rfl
  obtain ⟨Le, hLe⟩ := h.inv.core.envs
  obtain ⟨d, hd⟩ : ∃ d, (s.envs 0).envPgdir = some d :=
    Option.ne_none_iff_exists'.mp (eligible_dir hLe (Or.inr h.running))
  rcases sysPageAlloc_run hL hc hl ((hma.dir 0).trans hd) (show vaOk wildVa = true by decide)
    (show permOk 7 = true by decide) with ⟨rfl, -⟩ | ⟨u, -, hlt, -⟩ | ⟨f, m', u, L', -, hrun, rfl, htk, hmap⟩
  · simp at hlen
  · unfold tablesMissing at hlt
    split at hlt <;> omega
  have hsys : syscall 0 inp 4 0 wildVa 7 0 0 m = .ok 0 u := by
    simp only [syscall]
    rw [show (4 : Word).toNat = 4 from rfl]
    simp only [run_bind, hrun]
    rfl
  have ho : PmOnly m u := htk.only.trans hmap.edit.only
  have hme : ∀ e, e ≠ 0 → m.envs e = s.envs e := fun e he => by rw [hm, saved_envs, if_neg he]
  have hsafe : (Call.ofTf (callFrame 4 0 wildVa 7)).Safe m 0 True 0 := by
    have hins : ∀ {x va f}, ¬ (Call.ofTf (callFrame 4 0 wildVa 7)).Inserts m 0 x va f := by
      rintro x va f (⟨hno, -⟩ | ⟨⟨hno, -⟩, -⟩) <;> cases hno
    refine ⟨fun e he => (by cases he.1), fun e he => (by cases he.1),
      fun e va f hi => absurd hi hins, fun _ e hd hx => ?_⟩
    cases hd with
    | alloc _ hlx =>
      obtain rfl := Option.some.inj (hl.symm.trans hlx)
      obtain ⟨k, hk, hmode, -⟩ := hx
      have hmk : (m.cpus k).mode = (s.cpus k).mode := by
        simp [hm, saved, KState.setEnv, KState.setCpu, hk]
      exact h.alone k hk (hmk ▸ hmode)
    | unmap hno => cases hno
    | insert hi => exact absurd hi hins
  obtain ⟨t, hst, ht, henvs, ha, -⟩ := h.called inp (callFrame 4 0 wildVa 7) rfl
    (callFrame_ebp _ _ _ _) rfl hsys hsafe ho.cpus (by rw [ho.envs]) fun e he => by
      rw [ho.envs, hme e (by rintro rfl; exact absurd he (by decide))]
      exact h.rest e he
  have h1 : t.envs 1 = s.envs 1 := by
    rw [henvs 1 (by decide), ho.envs, hme 1 (by decide)]
  obtain ⟨hshow, -, -⟩ := htk.mapped hmap (by decide)
  have hfr : entryFrame (page2pa f ||| (7 : Word) ||| pteP) = some f := by
    rw [← hmap.entry]
    exact hshow.frame
  obtain ⟨L2, hL2, hsub⟩ := hmap.inv hfr (Or.inl (by rw [htk.unused]; decide))
  have hlen2 := hsub L' htk.inv
  have hpage : HasPage u f := by
    refine ⟨hshow.frame, hshow.entry, ?_, L2, ?_, ?_⟩
    · have hx : pteAt u (some 1) (pdx wildVa) (ptx wildVa) = 0 := by
        rw [hmap.edit.pte (some 1) _ _ fun hx => (by cases hx.1), htk.tables.2,
          pteAt_of_no_tab (hbare _)]
      rw [mappedAt, target, hx, entryFrame_zero]
    · rwa [Finset.erase_singleton] at hL2
    · rintro rfl
      rw [List.length_cons] at hlen
      rw [List.length_nil] at hlen2
      omega
  refine ⟨t, f, ⟨h.careful h.alone hsafe, hst⟩, ⟨⟨ht, ?_, ?_, ?_⟩, ?_, ?_, fun k hk => ?_⟩,
    hpage.alike ha⟩
  · rw [h1]
    exact h.status
  · rw [h1]
    exact h.childId
  · rw [h1]
    exact h.parentId
  · rw [h1]
    exact h.recving
  · rw [h1]
    exact h.dstva
  · rw [step_cpus_of_ne hst hk]
    exact h.alone k hk

theorem wild_covers (x : Word) : (x ||| 7) &&& wildPerm &&& pteSyscall = wildPerm &&& pteSyscall := by
  have h7 : wildPerm &&& pteSyscall = 7 := by decide
  rw [BitVec.and_assoc, h7]
  ext i hi
  simp only [BitVec.getElem_and, BitVec.getElem_or]
  cases x[i] <;> cases (7 : Word)[i] <;> rfl

/-- With that permission, every page ends up as the last frame of the address space. -/
theorem wild_entry {f : Nat} (hf : f < 2 ^ 20) :
    entryFrame (page2pa f ||| wildPerm ||| pteP) = some 0xFFFFF := by
  have hp : pgnum wildPerm = 0xFFFFF := by decide
  rw [entryFrame_mk wildPerm hf, hp]
  have h1 : f ||| 0xFFFFF < 2 ^ 20 := Nat.or_lt_two_pow hf (by decide)
  have h2 : 0xFFFFF ≤ f ||| 0xFFFFF := Nat.right_le_or
  congr 1
  omega

/-- The page part of the send. -/
theorem ipcSendPage_wild {f : Nat} (hL : PageInv s L ∅) (hn : L ≠ []) (hc : s.curenv c = some 0)
    (hd : (s.envs 0).envPgdir = some d) (hd' : (s.envs 1).envPgdir = some d')
    (hdst : (s.envs 1).envIpcDstva = wildVa) (hp : HasPage s f) (inp : Input) :
    ∃ t, ipcSendPage c inp 1 wildVa wildPerm s =
        .ok (.ok ()) (t.setEnv 1 { t.envs 1 with envIpcPerm := wildPerm }) ∧ PmOnly s t ∧
      mappedAt t 1 wildVa = some 0xFFFFF ∧ (t.pages f).ppRef = (s.pages f).ppRef + 1 ∧
      refs (target t) f = refs (target s) f := by
  have hi : pdx wildVa < utopPdx := by decide
  have hM := hL.counted.target _ f hp.mapped
  have hlt : f < 2 ^ 16 := (hL.lt_window hM).2
  have hpg : getPgdir 0 s = .ok d s := by simp only [getPgdir, run_bind, run_get, hd, run_pure]
  have hpg' : getPgdir 1 s = .ok d' s := by simp only [getPgdir, run_bind, run_get, hd', run_pure]
  have hwild := wild_entry (f := f) (by omega)
  obtain ⟨t, hins, ho, hent, href, hrefs⟩ := pageInsert_wild c wildVa wildPerm hL hn
    hd' hi hM (hL.counted.not_free_of_target hp.mapped) hp.other (by rw [hwild]; simp; omega)
  rcases pageLookup_run hL hd hi with ⟨hno, -⟩ | ⟨g, T, hg, -, hrun, hw⟩
  · exact absurd (hp.mapped.symm.trans hno) (by simp)
  obtain rfl : g = f := Option.some.inj (hg.symm.trans hp.mapped)
  have hcov : s.entry (T, ptx wildVa) &&& wildPerm &&& pteSyscall = wildPerm &&& pteSyscall := by
    have hx : s.entry (T, ptx wildVa) = page2pa g ||| 7 := hw.trans hp.entry
    rw [hx]
    exact wild_covers _
  refine ⟨t, ?_, ho, ?_, href, hrefs⟩
  · have ha : ¬ wildVa ≠ rounddown wildVa := by decide
    have hlt' : wildVa < utop := by decide
    simp only [ipcSendPage, run_bind, getCurenv_run hc, hpg, hrun, run_ite, if_neg ha, run_get,
      if_neg (not_not.mpr hcov), if_neg (Covers.write hcov), hdst, if_pos hlt', hpg', hins,
      run_pure, run_modify]
  · rw [mappedAt, target]
    exact (congrArg entryFrame hent).trans hwild

/-- The send. -/
theorem ChildWaits.sends {f : Nat} (h : ChildWaits s wildVa) (hp : HasPage s f) (inp : Input) :
    ∃ t, Step s (0, .trap inp wildFrame) t ∧ (t.envs 1).envStatus ≠ .free ∧
      mappedAt t 1 wildVa = some 0xFFFFF ∧ t.npages ≤ 65536 ∧ Managed t f ∧
      (t.pages f).ppRef.toNat ≠ refs (target t) f := by
  set m := saved 0 0 wildFrame s with hm
  have hma : Alike s m := saved_alike _
  have hpm := hp.alike hma
  obtain ⟨L, hL, hn⟩ := hpm.room
  have hc : m.curenv 0 = some 0 := (saved_curenv _ 0).trans h.user.current
  have hm1 : m.envs 1 = s.envs 1 := by rw [hm, saved_envs, if_neg (by decide)]
  obtain ⟨Le, hLe⟩ := h.inv.core.envs
  obtain ⟨d, hd⟩ : ∃ d, (s.envs 0).envPgdir = some d :=
    Option.ne_none_iff_exists'.mp (eligible_dir hLe (Or.inr h.running))
  obtain ⟨d', hd'⟩ : ∃ d, (s.envs 1).envPgdir = some d :=
    Option.ne_none_iff_exists'.mp fun hx => by
      have := (hLe.dir 1).mp hx
      rw [h.status] at this
      cases this
  have haw : Awaits m 0 4097 1 :=
    ⟨lookupEnv_unchecked ((saved_lookup _ _ _).trans (h.look (by simp))), by
      rw [hm1]
      exact h.recving⟩
  obtain ⟨v, hrun, ho, hmap, href, hrefs⟩ := ipcSendPage_wild hL hn hc ((hma.dir 0).trans hd)
    ((hma.dir 1).trans hd') (by rw [hm1]; exact h.dstva) hpm inp
  set v' := v.setEnv 1 { v.envs 1 with envIpcPerm := wildPerm } with hv'
  have hcv : v'.curenv 0 = some 0 := (congrFun ho.curenv 0).trans hc
  set u := received v' 0 1 0 with hu
  have hsys : syscall 0 inp 11 4097 0 wildVa wildPerm 0 m = .ok 0 u := by
    have hpage := sysIpcTrySend_page 0 wildPerm hc haw (show wildVa < utop by decide) inp
    rw [hrun] at hpage
    simp only [run_bind, ipcDeliver_run hcv, run_pure] at hpage
    simp only [syscall]
    rw [show (11 : Word).toNat = 11 from rfl]
    simp only [run_bind, hpage]
    rfl
  have h0 : u.envs 0 = m.envs 0 := by
    rw [hu, hv', ← ho.envs]
    simp [received, KState.setEnv]
  obtain ⟨t, hst, -, -, henvs, ha, -⟩ := h.returns inp wildFrame rfl (by decide) rfl hsys ho.cpus h0
  have huv : Alike v u := by
    have h1 : Alike v v' := Alike.setEnv rfl rfl Iff.rfl
    refine h1.trans (Alike.setEnv rfl rfl ?_)
    rw [hv']
    simp [KState.setEnv, ho.envs, hm1, h.status]
  have hvt := huv.trans ha
  have hMv : Managed v f := by
    rw [ho.managed]
    exact hL.counted.target _ f hpm.mapped
  have hex : (m.pages f).ppRef.toNat = refs (target m) f :=
    hL.counted.exact f (hL.counted.target _ f hpm.mapped)
  refine ⟨t, hst, ?_, ?_, ?_, ?_, ?_⟩
  · rw [henvs 1 (by decide), hu, received_env]
    simp
  · rw [mappedAt, hvt.target]
    exact hmap
  · rw [hvt.limits.npages, ho.npages]
    exact hL.window
  · have hM : Managed t = Managed v := by
      funext f
      simp [Managed, hvt.limits.npages, hvt.limits.nextfree]
    rw [hM]
    exact hMv
  · rw [hvt.pages, hvt.target, href, hrefs, ← hex]
    intro heq
    have := BitVec.eq_of_toNat_eq heq
    simp at this

end

/-! ### From boot on -/

/-- The child waits for a message, and then its parent allocates a page. -/
theorem child_waits_page : ∃ ls s f, BootRun (Careful True) oneProgram ls s ∧
    ChildWaits s wildVa ∧ HasPage s f := by
  obtain ⟨ls, s, hplain, h, hr⟩ := child_waits wildVa (by decide)
  obtain ⟨s0, hboot, hrun⟩ := hplain.mono (Careful True) fun _ _ hc => hc.1
  obtain ⟨t, f, hst, ht, hp⟩ := h.allocs hr .plain
  exact ⟨_, t, f, ⟨s0, hboot, hrun.append (.single hst)⟩, ht, hp⟩

/-- In every careful run, environments have nothing but user data mapped below `UTOP`, and the next
    send hands on exactly the frame that is mapped at its source. -/
theorem isolation {p : BootParams} {ls : List (CpuIdx × Event)} {s : KState}
    (h : BootRun (Careful True) p ls s) :
    Isolated s ∧ ∀ c inp tf t, Careful True s (c, .trap inp tf) → Step s (c, .trap inp tf) t →
      SendsFaithfully s c tf t := by
  obtain ⟨-, hinv⟩ := careful_run h
  exact ⟨hinv.core.isolated, fun c inp tf t hc hst => hinv.sendsFaithfully hc hst⟩

theorem isolation_demo : ∃ ls s f, BootRun (Careful True) oneProgram ls s ∧
    mappedAt s 0 wildVa = some f ∧ (s.envs 1).envIpcRecving = true ∧ Isolated s ∧
    ∀ c inp tf t, Careful True s (c, .trap inp tf) → Step s (c, .trap inp tf) t →
      SendsFaithfully s c tf t := by
  obtain ⟨ls, s, f, hr, hw, hp⟩ := child_waits_page
  exact ⟨ls, s, f, hr, hp.mapped, hw.recving, isolation hr⟩

/-- In every careful run, all reference counts are exact. -/
theorem counts_exact {p : BootParams} {ls : List (CpuIdx × Event)} {s : KState}
    (h : BootRun (Careful True) p ls s) : CountsExact s :=
  (careful_run h).2.core.countsExact

theorem counts_exact_demo : ∃ ls s f, BootRun (Careful True) oneProgram ls s ∧
    mappedAt s 0 wildVa = some f ∧ CountsExact s := by
  obtain ⟨ls, s, f, hr, -, hp⟩ := child_waits_page
  exact ⟨ls, s, f, hr, hp.mapped, counts_exact hr⟩

/-- A parent sends its waiting child a page with a permission that has all upper bits set. -/
theorem wild_send : ∃ ls s f, BootRun (fun _ _ => True) oneProgram ls s ∧
    (s.envs 1).envStatus ≠ .free ∧ mappedAt s 1 wildVa = some 0xFFFFF ∧ s.npages ≤ 65536 ∧
    Managed s f ∧ (s.pages f).ppRef.toNat ≠ refs (target s) f := by
  obtain ⟨ls, s, f, hr, h, hp⟩ := child_waits_page
  obtain ⟨s0, hboot, hrun⟩ := hr.mono (fun _ _ => True) fun _ _ _ => trivial
  obtain ⟨t, hst, ht⟩ := h.sends hp .plain
  exact ⟨_, t, f, ⟨s0, hboot, hrun.append (.single ⟨trivial, hst⟩)⟩, ht⟩

/-- The child then has memory mapped that does not exist. -/
theorem isolation_broken : ¬ ∀ p ls s, BootRun (fun _ _ => True) p ls s → Isolated s := by
  intro hall
  obtain ⟨ls, s, f, hrun, hlive, hmap, hn, -⟩ := wild_send
  have hM := (hall _ _ _ hrun 1 wildVa 0xFFFFF hlive (by decide) hmap).managed.1
  omega

/-- And the page that should have been sent is counted once too often. -/
theorem counts_broken : ¬ ∀ p ls s, BootRun (fun _ _ => True) p ls s → CountsExact s := by
  intro hall
  obtain ⟨ls, s, f, hrun, -, -, -, hM, hne⟩ := wild_send
  obtain ⟨L, -, hex⟩ := (hall _ _ _ hrun).counts
  exact hne (hex f hM).1

end Jos
